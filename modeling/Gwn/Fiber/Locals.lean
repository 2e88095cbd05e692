import Gwn.Framework.System
import Gwn.Scheduler.Model

/-! # The thread-local pointers of the scheduler

    `t_scheduler` and `t_scheduler_fiber` (gwn/scheduler.cc) are raw pointers. The
    constructor of `Scheduler` and `Scheduler::run` set them, to the scheduler and to a
    fiber of it or of the thread, and the destructor resets the first of the two. This is
    one thread with its fibers and with the schedulers that it constructs, starts,
    stops and destroys. Which call comes next is left open, whatever context the thread
    has switched to.

    - `Thread`, `step`: the pointers, what they point to, and the calls
    - `Valid`: no pointer dangles, and no fiber is used that has been destroyed
    - `valid_iff`: when this holds throughout a run
    - `scheduler_live`: for `t_scheduler` it always does -/

namespace Gwn.Fiber.Locals

open LTS
open Scheduler (FiberState)

/-! ### The thread -/

/-- A fiber of the thread. -/
inductive Ref where
  /-- From `Fiber::Fiber()`, on the thread's own stack. -/
  | main (n : Nat)
  /-- `m_rootFiber` of a scheduler. -/
  | root (k : Nat)
  | user (f : Nat)
deriving DecidableEq, Repr

/-- What `t_scheduler` can point to. -/
inductive SchedulerRef where
  /-- The scheduler that has the thread in its pool. Another thread has constructed it, and
      joins this one before it destroys it. -/
  | pool
  /-- One that the thread has constructed. -/
  | own (k : Nat)
deriving DecidableEq, Repr

structure Sched where
  /-- `m_rootThread` is this thread, and there is an `m_rootFiber`. -/
  useCaller : Bool
  threadCount : Nat
  /-- The size of `m_threads`. -/
  threads : Nat
  /-- `m_stopping`. -/
  stopping : Bool
  autoStop : Bool

/-- `stopping()`, where `m_fibers` is empty and `m_activeThreadCount` is zero if `drained`. -/
def Sched.isStopping (c : Sched) (drained : Bool) : Bool :=
  c.autoStop && c.stopping && drained

structure Thread where
  /-- `t_fiber`. -/
  fiber : Option Ref
  /-- `t_threadFiber`, the only one of the four that owns what it points to. -/
  threadFiber : Option Ref
  /-- `t_scheduler`. -/
  scheduler : Option SchedulerRef
  /-- `t_scheduler_fiber`. -/
  schedulerFiber : Option Ref
  /-- The schedulers that the thread has constructed and not destroyed. -/
  scheds : Nat → Option Sched
  /-- `m_state` of the fibers that are there. -/
  state : Ref → Option FiberState
  /-- How many schedulers, main fibers and other fibers have been constructed. -/
  nscheds : Nat
  nmains : Nat
  nfibers : Nat
  /-- A context was saved in, or loaded from, a fiber that had been destroyed. -/
  strayed : Bool

/-- An operation on fibers. -/
inductive FiberOp where
  | getThis
  | newFiber
  /-- The last reference to the fiber goes away. -/
  | dropFiber (f : Nat)
  | reset (f : Nat)
  | setState (r : Ref) (st : FiberState)
  | swapIn (r : Ref)
  | swapOut (r : Ref)
  | call (r : Ref)
  | back (r : Ref)
  /-- `YieldToReady` or `YieldToHold`. -/
  | yield (st : FiberState)
  /-- The end of `MainFunc`, or of `CallerMainFunc`, in a fiber that somebody else has a
      reference to. -/
  | returns (r : Ref) (st : FiberState) (useCaller : Bool)
  /-- The same in a fiber that nobody else has a reference to. -/
  | returnLast (f : Nat) (st : FiberState) (useCaller : Bool)
deriving DecidableEq, Repr

/-- What the thread does next. -/
inductive Label where
  | fiber (op : FiberOp)
  | construct (threads : Nat) (useCaller : Bool)
  | start (k : Nat)
  /-- The scheduler has nothing left to do when `stopping()` is called for the first time, and
      for the second. -/
  | stop (k : Nat) (drained drained' : Bool)
  /-- `stop` behind the call of `m_rootFiber`. -/
  | join (k : Nat)
  /-- `held`: somebody else has a reference to `m_rootFiber`, such as its `CallerMainFunc`. -/
  | destroy (k : Nat) (held : Bool)
deriving DecidableEq, Repr

/-- Whether anybody but a scheduler has a pointer to the fiber. -/
def Ref.shared : Ref → Bool
  | .root _ => false
  | _ => true

namespace Thread

/-- The fiber is there. -/
def live (s : Thread) (r : Ref) : Bool :=
  (s.state r).isSome

/-- The assertion of `reset`, and of `~Fiber` for a fiber with a stack. -/
def resettable (s : Thread) (r : Ref) : Bool :=
  (s.state r).any FiberState.resettable

/-- `m_state` of a fiber; `none` when it is destroyed. -/
def setState (s : Thread) (r : Ref) (st : Option FiberState) : Thread :=
  { s with state := Function.update s.state r st }

def setSched (s : Thread) (k : Nat) (c : Option Sched) : Thread :=
  { s with scheds := Function.update s.scheds k c }

/-! ### Fibers -/

/-- A main fiber that `t_threadFiber` does not hold any longer is destroyed. -/
def release (s : Thread) : Thread :=
  match s.threadFiber with
  | none => s
  | some r => s.setState r none

/-- `Fiber::GetThis()`. -/
def getThis (s : Thread) : Thread :=
  match s.fiber with
  | some _ => s
  | none =>
    -- `Fiber::Fiber()` sets `t_fiber`
    { s.release.setState (.main s.nmains) (some .exec) with
      fiber := some (.main s.nmains), threadFiber := some (.main s.nmains), nmains := s.nmains + 1 }

/-- `swapcontext`, which ends the program at a null pointer. -/
def swapcontext (s : Thread) : Option Ref → Option Ref → Option Thread
  | some r, some r' => some { s with strayed := s.strayed || !(s.live r && s.live r') }
  | _, _ => none

/-- Before the switch in `swapIn` and `call`. -/
def enter (s : Thread) (r : Ref) : Thread :=
  { s.setState r (some .exec) with fiber := some r }

/-- `gwn_ASSERT(m_state != EXEC)`. -/
def enterable (s : Thread) (r : Ref) : Bool :=
  (s.state r).any (· ≠ .exec)

def swapIn (s : Thread) (r : Ref) : Option Thread :=
  if s.enterable r then (s.enter r).swapcontext s.schedulerFiber (some r) else none

def swapOut (s : Thread) (r : Ref) : Option Thread :=
  { s with fiber := s.threadFiber }.swapcontext (some r) s.schedulerFiber

def call (s : Thread) (r : Ref) : Option Thread :=
  if s.enterable r then (s.enter r).swapcontext s.threadFiber (some r) else none

def back (s : Thread) (r : Ref) : Option Thread :=
  { s with fiber := s.threadFiber }.swapcontext (some r) s.threadFiber

/-- `YieldToReady` and `YieldToHold`. -/
def yield (s : Thread) (st : FiberState) : Option Thread :=
  match s.getThis.fiber with
  | none => none
  | some r =>
    if s.getThis.state r = some .exec then (s.getThis.setState r (some st)).swapOut r else none

/-- Which of the two ends `MainFunc` and `CallerMainFunc`. -/
def leave (s : Thread) (r : Ref) (useCaller : Bool) : Option Thread :=
  if useCaller then s.back r else s.swapOut r

/-- A body can end that leaves `st` behind, and there is something to switch to. -/
def Returnable (s : Thread) (r : Ref) (st : FiberState) (useCaller : Bool) : Prop :=
  s.live r ∧ st.finished ∧ (if useCaller then s.threadFiber else s.schedulerFiber).isSome

instance (s : Thread) (r : Ref) (st : FiberState) (useCaller : Bool) :
    Decidable (s.Returnable r st useCaller) :=
  inferInstanceAs (Decidable (_ ∧ _ ∧ _))

/-! ### Schedulers -/

/-- `Scheduler::Scheduler`. -/
def construct (s : Thread) (threads : Nat) (useCaller : Bool) : Option Thread :=
  let c : Sched :=
    { useCaller, threadCount := threads, threads := 0, stopping := true, autoStop := false }
  -- `gwn_ASSERT(threads > 0)`
  if threads = 0 then none
  else if useCaller then
    -- `gwn_ASSERT(GetThis() == nullptr)`
    if s.getThis.scheduler = none then
      some { (s.getThis.setState (.root s.nscheds) (some .init)).setSched s.nscheds
          (some { c with threadCount := threads - 1 }) with
        scheduler := some (.own s.nscheds), schedulerFiber := some (.root s.nscheds)
        nscheds := s.nscheds + 1 }
    else none
  else some { s.setSched s.nscheds (some c) with nscheds := s.nscheds + 1 }

/-- The beginning of `run`; `isRoot` if the thread is `m_rootThread`. -/
def run (s : Thread) (this : SchedulerRef) (isRoot : Bool) : Thread :=
  let s := { s with scheduler := some this }
  -- on a thread of the pool the main fiber is the scheduler fiber
  if isRoot then s else { s.getThis with schedulerFiber := s.getThis.fiber }

/-- `start`, which has `run` called on other threads. -/
def start (s : Thread) (k : Nat) : Option Thread :=
  match s.scheds k with
  | none => none
  | some c =>
    if ¬ c.stopping then some s
    else if c.threads = 0 then
      some (s.setSched k (some { c with stopping := false, threads := c.threadCount }))
    else none

/-- `thrs.swap(m_threads)`, and the threads are joined. -/
def join (s : Thread) (k : Nat) : Option Thread :=
  match s.scheds k with
  | none => none
  | some c => some (s.setSched k (some { c with threads := 0 }))

/-- `stop`, up to the call of `m_rootFiber` if it comes to it. -/
def stop (s : Thread) (k : Nat) (drained drained' : Bool) : Option Thread :=
  match s.scheds k with
  | none => none
  | some c =>
    let c' := { c with autoStop := true, stopping := true }
    if c.useCaller ∧ c.threadCount = 0 ∧
        (s.state (.root k) = some .term ∨ s.state (.root k) = some .init) ∧
          c'.isStopping drained then
      some (s.setSched k (some c'))
    -- `gwn_ASSERT`: the scheduler that is called must be `t_scheduler` if it has a root
    -- fiber, and must not be if it has none
    else if c.useCaller ≠ decide (s.scheduler = some (.own k)) then none
    else if c.useCaller ∧ ¬ c'.isStopping drained' then
      -- a root fiber that has not run yet begins with `run`
      let begins := s.state (.root k) = some .init
      ((s.setSched k (some c')).call (.root k)).map fun s' =>
        if begins then s'.run (.own k) true else s'
    else (s.setSched k (some c')).join k

/-- `~Scheduler` gets past its assertion, and past the one of `~Fiber` if nobody else has a
    reference to `m_rootFiber`. -/
def Destroyable (s : Thread) (k : Nat) (c : Sched) (held : Bool) : Prop :=
  c.stopping ∧ (c.useCaller ∧ ¬ held → s.resettable (.root k))

instance (s : Thread) (k : Nat) (c : Sched) (held : Bool) : Decidable (s.Destroyable k c held) :=
  inferInstanceAs (Decidable (_ ∧ (_ → _)))

/-- `if(GetThis() == this)`, and what follows. -/
def unset (s : Thread) (k : Nat) : Thread :=
  if s.scheduler = some (.own k) then { s with scheduler := none } else s

/-- `~Scheduler`, behind these assertions. -/
def destroy (s : Thread) (k : Nat) (c : Sched) (held : Bool) : Thread :=
  -- `t_scheduler_fiber` is left as it is
  let s' := (s.unset k).setSched k none
  if c.useCaller ∧ ¬ held then s'.setState (.root k) none else s'

end Thread

def fiberStep (s : Thread) : FiberOp → Option Thread
  | .getThis => some s.getThis
  | .newFiber => some { s.setState (.user s.nfibers) (some .init) with nfibers := s.nfibers + 1 }
  | .dropFiber f => if s.resettable (.user f) then some (s.setState (.user f) none) else none
  | .reset f => if s.resettable (.user f) then some (s.setState (.user f) (some .init)) else none
  | .setState r st => if r.shared ∧ s.live r then some (s.setState r (some st)) else none
  | .swapIn r => if r.shared then s.swapIn r else none
  | .swapOut r => if s.live r then s.swapOut r else none
  | .call r => if r.shared then s.call r else none
  | .back r => if s.live r then s.back r else none
  | .yield st => s.yield st
  | .returns r st useCaller =>
    if s.Returnable r st useCaller then (s.setState r (some st)).leave r useCaller else none
  | .returnLast f st useCaller =>
    -- `cur.reset()` destroys the fiber, and then `raw_ptr` is used
    if s.Returnable (.user f) st useCaller then
      (s.setState (.user f) none).leave (.user f) useCaller
    else none

def step (s : Thread) : Label → Option Thread
  | .fiber op => fiberStep s op
  | .construct threads useCaller => s.construct threads useCaller
  | .start k => s.start k
  | .stop k drained drained' => s.stop k drained drained'
  | .join k => s.join k
  | .destroy k held =>
    match s.scheds k with
    | none => none
    | some c => if s.Destroyable k c held then some (s.destroy k c held) else none

/-- A new thread. -/
def Thread.initial : Thread :=
  { fiber := none, threadFiber := none, scheduler := none, schedulerFiber := none
    scheds := fun _ => none, state := fun _ => none, nscheds := 0, nmains := 0, nfibers := 0
    strayed := false }

/-- A thread of the pool of a scheduler, which has begun with `run`, or any other thread. -/
def thread (pool : Bool) : System Thread Label where
  init := if pool then Thread.initial.run .pool false else .initial
  step := step

/-! ### What is promised -/

/-- The fiber belongs to the current scheduler or to the thread. -/
def Thread.Belongs (s : Thread) : Ref → Prop
  | .main n => s.threadFiber = some (.main n)
  | .root k => s.scheduler = some (.own k)
  | .user _ => False

/-- The scheduler is there. -/
def Thread.alive (s : Thread) : SchedulerRef → Bool
  | .pool => true
  | .own k => (s.scheds k).isSome

/-- `t_scheduler` is null or a scheduler that is there, `t_scheduler_fiber` is null or a fiber
    that is there and belongs to it or to the thread, and every context that was saved or
    loaded is that of a fiber that was there. -/
structure Valid (s : Thread) : Prop where
  scheduler : ∀ p, s.scheduler = some p → s.alive p
  schedulerFiber : ∀ r, s.schedulerFiber = some r → s.live r ∧ s.Belongs r
  strayed : s.strayed = false

/-- No scheduler with `use_caller` is destroyed, and no body ends in a fiber that nobody else
    has a reference to. -/
def Kept (s : Thread) : Label → Prop
  | .destroy k held => ∀ c, s.scheds k = some c → s.Destroyable k c held → c.useCaller = false
  | .fiber (.returnLast f st useCaller) => ¬ s.Returnable (.user f) st useCaller
  | _ => True

/-! ### Operations on fibers -/

/-- The schedulers are as before, and so are the pointers to one of them and to its fiber. -/
structure Frame (s s' : Thread) : Prop where
  scheds : s'.scheds = s.scheds
  scheduler : s'.scheduler = s.scheduler
  schedulerFiber : s'.schedulerFiber = s.schedulerFiber
  nscheds : s'.nscheds = s.nscheds

section operations
variable {s s' t : Thread} {r : Ref} {st : FiberState}

theorem Frame.trans (h : Frame s t) (h' : Frame t s') : Frame s s' where
  scheds := h'.scheds.trans h.scheds
  scheduler := h'.scheduler.trans h.scheduler
  schedulerFiber := h'.schedulerFiber.trans h.schedulerFiber
  nscheds := h'.nscheds.trans h.nscheds

theorem live_setState (s : Thread) (r r' : Ref) (o : Option FiberState) :
    (s.setState r o).live r' = if r' = r then o.isSome else s.live r' := by
  simp only [Thread.live, Thread.setState, Function.update_apply]
  split <;> rfl

theorem live_set (s : Thread) (r : Ref) (st : FiberState) : (s.setState r (some st)).live r := by
  rw [live_setState, if_pos rfl]
  rfl

theorem Frame.release (s : Thread) : Frame s s.release := by
  unfold Thread.release
  split <;> exact ⟨rfl, rfl, rfl, rfl⟩

theorem Frame.getThis (s : Thread) : Frame s s.getThis := by
  unfold Thread.getThis
  split
  · exact ⟨rfl, rfl, rfl, rfl⟩
  · have hrelease := Frame.release s
    exact ⟨hrelease.scheds, hrelease.scheduler, hrelease.schedulerFiber, hrelease.nscheds⟩

theorem swapcontext_eq {save load : Option Ref} (h : s.swapcontext save load = some s') :
    ∃ r r', save = some r ∧ load = some r' ∧
      s' = { s with strayed := s.strayed || !(s.live r && s.live r') } := by
  cases save with
  | none => cases h
  | some r =>
    cases load with
    | none => cases h
    | some r' => exact ⟨r, r', rfl, rfl, (Option.some.inj h).symm⟩

theorem Frame.swapcontext {save load : Option Ref} (h : s.swapcontext save load = some s') :
    Frame s s' := by
  obtain ⟨_, _, _, _, rfl⟩ := swapcontext_eq h
  exact ⟨rfl, rfl, rfl, rfl⟩

theorem Frame.swapIn (h : s.swapIn r = some s') : Frame s s' := by
  obtain ⟨_, h⟩ := Option.ite_none_right_eq_some.mp h
  exact .trans (t := s.enter r) ⟨rfl, rfl, rfl, rfl⟩ (.swapcontext h)

theorem Frame.call (h : s.call r = some s') : Frame s s' := by
  obtain ⟨_, h⟩ := Option.ite_none_right_eq_some.mp h
  exact .trans (t := s.enter r) ⟨rfl, rfl, rfl, rfl⟩ (.swapcontext h)

theorem Frame.swapOut (h : s.swapOut r = some s') : Frame s s' :=
  .trans (t := { s with fiber := s.threadFiber }) ⟨rfl, rfl, rfl, rfl⟩ (.swapcontext h)

theorem Frame.back (h : s.back r = some s') : Frame s s' :=
  .trans (t := { s with fiber := s.threadFiber }) ⟨rfl, rfl, rfl, rfl⟩ (.swapcontext h)

theorem Frame.leave {useCaller : Bool} (h : s.leave r useCaller = some s') : Frame s s' := by
  cases useCaller with
  | false => exact .swapOut h
  | true => exact .back h

theorem yield_eq (h : s.yield st = some s') : ∃ r, s.getThis.fiber = some r ∧
    s.getThis.state r = some .exec ∧ (s.getThis.setState r (some st)).swapOut r = some s' := by
  unfold Thread.yield at h
  split at h
  · cases h
  · next r hr =>
    obtain ⟨hexec, h⟩ := Option.ite_none_right_eq_some.mp h
    exact ⟨r, hr, hexec, h⟩

theorem Frame.yield (h : s.yield st = some s') : Frame s s' := by
  obtain ⟨r, -, -, h⟩ := yield_eq h
  have hset : Frame s (s.getThis.setState r (some st)) :=
    (Frame.getThis s).trans ⟨rfl, rfl, rfl, rfl⟩
  exact hset.trans (.swapOut h)

/-- No operation on fibers concerns the schedulers. -/
theorem Frame.fiberStep {op : FiberOp} (h : fiberStep s op = some s') : Frame s s' := by
  cases op with
  | getThis => exact Option.some.inj h ▸ .getThis s
  | newFiber => exact Option.some.inj h ▸ ⟨rfl, rfl, rfl, rfl⟩
  | dropFiber f | reset f | setState r st =>
    obtain ⟨_, h⟩ := Option.ite_none_right_eq_some.mp h
    exact Option.some.inj h ▸ ⟨rfl, rfl, rfl, rfl⟩
  | swapIn r => exact .swapIn (Option.ite_none_right_eq_some.mp h).2
  | swapOut r => exact .swapOut (Option.ite_none_right_eq_some.mp h).2
  | call r => exact .call (Option.ite_none_right_eq_some.mp h).2
  | back r => exact .back (Option.ite_none_right_eq_some.mp h).2
  | yield st => exact .yield h
  | returns r st useCaller =>
    obtain ⟨_, h⟩ := Option.ite_none_right_eq_some.mp h
    exact .trans (t := s.setState r (some st)) ⟨rfl, rfl, rfl, rfl⟩ (.leave h)
  | returnLast f st useCaller =>
    obtain ⟨_, h⟩ := Option.ite_none_right_eq_some.mp h
    exact .trans (t := s.setState (.user f) none) ⟨rfl, rfl, rfl, rfl⟩ (.leave h)

/-- What becomes of `m_rootFiber` does not concern the pointers. -/
theorem Frame.destroy (s : Thread) (k : Nat) (c : Sched) (held : Bool) :
    Frame ((s.unset k).setSched k none) (s.destroy k c held) := by
  unfold Thread.destroy
  simp only
  split <;> exact ⟨rfl, rfl, rfl, rfl⟩

end operations

/-! ### The invariant -/

/-- The scheduler is there, and was constructed with `use_caller`. -/
def Thread.uses (s : Thread) (k : Nat) : Bool :=
  (s.scheds k).any Sched.useCaller

/-- `t_scheduler` and `t_scheduler_fiber` go with the scheduler that uses the thread, and
    there is one main fiber, from the first `GetThis` on. -/
structure Inv (s : Thread) : Prop where
  fiber : s.fiber = none → s.threadFiber = none
  threadFiber : ∀ r, s.threadFiber = some r → s.live r ∧ ∃ n, r = .main n
  uses : ∀ k, s.uses k ↔ s.scheduler = some (.own k)
  root : ∀ k, s.uses k → s.schedulerFiber = some (.root k)
  schedulerFiber : ∀ r, s.schedulerFiber = some r → s.live r ∧ s.Belongs r
  fresh : ∀ k, s.nscheds ≤ k → s.scheds k = none
  strayed : s.strayed = false

section inv
variable {s s' : Thread} {r : Ref} {st : FiberState} {k : Nat} {c c' : Sched}

theorem Inv.valid (hi : Inv s) : Valid s where
  scheduler p hp := by
    cases p with
    | pool => rfl
    | own k =>
      obtain ⟨c, hc, _⟩ := (Option.any_eq_true _ _).mp ((hi.uses k).mpr hp)
      simp [Thread.alive, hc]
  schedulerFiber := hi.schedulerFiber
  strayed := hi.strayed

theorem Inv.setFiber {x : Option Ref} (hi : Inv s) (hx : x = none → s.threadFiber = none) :
    Inv { s with fiber := x } :=
  { hi with fiber := hx }

/-- The pointers keep what they point to as long as only fibers of the user are destroyed. -/
theorem Inv.setState {o : Option FiberState} (hi : Inv s) (ho : o.isSome ∨ ∃ f, r = .user f) :
    Inv (s.setState r o) := by
  have hlive : ∀ r', (∀ f, r' ≠ .user f) → s.live r' → (s.setState r o).live r' := by
    intro r' huser hr'
    rw [live_setState]
    split
    · next heq =>
      -- the fiber itself, which is destroyed only if it is one of the user
      subst heq
      obtain ho | ⟨f, hf⟩ := ho
      · exact ho
      · exact absurd hf (huser f)
    · exact hr'
  refine { hi with threadFiber := ?_, schedulerFiber := ?_ }
  · intro r' hr'
    obtain ⟨hr'live, n, rfl⟩ := hi.threadFiber r' hr'
    exact ⟨hlive _ (by simp) hr'live, n, rfl⟩
  · intro r' hr'
    obtain ⟨hr'live, hbelongs⟩ := hi.schedulerFiber r' hr'
    refine ⟨hlive _ ?_ hr'live, ?_⟩
    · rintro f rfl
      exact hbelongs
    · cases r' <;> exact hbelongs

theorem Inv.swapcontext {save load : Option Ref} (hi : Inv s)
    (hsave : ∀ r, save = some r → s.live r)
    (hload : ∀ r, load = some r → s.live r)
    (h : s.swapcontext save load = some s') : Inv s' := by
  obtain ⟨r, r', hr, hr', rfl⟩ := swapcontext_eq h
  refine { hi with strayed := ?_ }
  simp [hi.strayed, hsave r hr, hload r' hr']

theorem Inv.enter (hi : Inv s) : Inv (s.enter r) :=
  (hi.setState (.inl rfl)).setFiber (by simp)

theorem Inv.swapIn (hi : Inv s) (h : s.swapIn r = some s') : Inv s' := by
  obtain ⟨_, h⟩ := Option.ite_none_right_eq_some.mp h
  refine hi.enter.swapcontext (fun r' hr' => (hi.enter.schedulerFiber r' hr').1) ?_ h
  intro r' hr'
  exact Option.some.inj hr' ▸ live_set s r .exec

theorem Inv.call (hi : Inv s) (h : s.call r = some s') : Inv s' := by
  obtain ⟨_, h⟩ := Option.ite_none_right_eq_some.mp h
  refine hi.enter.swapcontext (fun r' hr' => (hi.enter.threadFiber r' hr').1) ?_ h
  intro r' hr'
  exact Option.some.inj hr' ▸ live_set s r .exec

theorem Inv.swapOut (hi : Inv s) (hr : s.live r) (h : s.swapOut r = some s') : Inv s' := by
  have hleft : Inv { s with fiber := s.threadFiber } := hi.setFiber id
  refine hleft.swapcontext ?_ (fun r' hr' => (hi.schedulerFiber r' hr').1) h
  intro r' hr'
  exact Option.some.inj hr' ▸ hr

theorem Inv.back (hi : Inv s) (hr : s.live r) (h : s.back r = some s') : Inv s' := by
  have hleft : Inv { s with fiber := s.threadFiber } := hi.setFiber id
  refine hleft.swapcontext ?_ (fun r' hr' => (hi.threadFiber r' hr').1) h
  intro r' hr'
  exact Option.some.inj hr' ▸ hr

/-- `GetThis` makes a main fiber where there is none, so that none is replaced. -/
theorem Inv.getThis (hi : Inv s) : Inv s.getThis := by
  unfold Thread.getThis
  split
  · exact hi
  · next hfiber =>
    have hnone := hi.fiber hfiber
    have hrelease : s.release = s := by
      unfold Thread.release
      rw [hnone]
    rw [hrelease]
    have hset : Inv (s.setState (.main s.nmains) (some .exec)) := hi.setState (.inl rfl)
    refine { hset with fiber := ?_, threadFiber := ?_, schedulerFiber := ?_ }
    · intro h
      cases h
    · intro r hr
      cases hr
      exact ⟨live_set s _ .exec, _, rfl⟩
    · intro r hr
      obtain ⟨hlive, hbelongs⟩ := hset.schedulerFiber r hr
      refine ⟨hlive, ?_⟩
      cases r with
      | main n =>
        rw [show s.threadFiber = some (.main n) from hbelongs] at hnone
        cases hnone
      | root k => exact hbelongs
      | user f => exact hbelongs

theorem Inv.fiberStep {op : FiberOp} (hi : Inv s) (hkept : Kept s (.fiber op))
    (h : fiberStep s op = some s') : Inv s' := by
  cases op with
  | getThis => exact Option.some.inj h ▸ hi.getThis
  | newFiber =>
    have hset : Inv (s.setState (.user s.nfibers) (some .init)) := hi.setState (.inl rfl)
    exact Option.some.inj h ▸ { hset with }
  | dropFiber f =>
    obtain ⟨_, h⟩ := Option.ite_none_right_eq_some.mp h
    exact Option.some.inj h ▸ hi.setState (.inr ⟨f, rfl⟩)
  | reset f =>
    obtain ⟨_, h⟩ := Option.ite_none_right_eq_some.mp h
    exact Option.some.inj h ▸ hi.setState (.inl rfl)
  | setState r st =>
    obtain ⟨_, h⟩ := Option.ite_none_right_eq_some.mp h
    exact Option.some.inj h ▸ hi.setState (.inl rfl)
  | swapIn r => exact hi.swapIn (Option.ite_none_right_eq_some.mp h).2
  | swapOut r =>
    obtain ⟨hr, h⟩ := Option.ite_none_right_eq_some.mp h
    exact hi.swapOut hr h
  | call r => exact hi.call (Option.ite_none_right_eq_some.mp h).2
  | back r =>
    obtain ⟨hr, h⟩ := Option.ite_none_right_eq_some.mp h
    exact hi.back hr h
  | yield st =>
    obtain ⟨r, _, _, h⟩ := yield_eq h
    exact (hi.getThis.setState (.inl rfl)).swapOut (live_set s.getThis r st) h
  | returns r st useCaller =>
    obtain ⟨_, h⟩ := Option.ite_none_right_eq_some.mp h
    have hset : Inv (s.setState r (some st)) := hi.setState (.inl rfl)
    cases useCaller with
    | false => exact hset.swapOut (live_set s r st) h
    | true => exact hset.back (live_set s r st) h
  | returnLast f st useCaller => exact absurd (Option.ite_none_right_eq_some.mp h).1 hkept

/-! ### Operations on schedulers -/

theorem uses_setSched (s : Thread) (k : Nat) (o : Option Sched) (k' : Nat) :
    (s.setSched k o).uses k' = if k' = k then o.any Sched.useCaller else s.uses k' := by
  simp only [Thread.uses, Thread.setSched, Function.update_apply]
  split <;> rfl

/-- A scheduler can change, come or go as long as the thread is used by the same one. -/
theorem Inv.setSched {o : Option Sched} (hi : Inv s) (hk : k < s.nscheds)
    (huses : o.any Sched.useCaller = s.uses k) : Inv (s.setSched k o) := by
  have heq : (s.setSched k o).uses = s.uses := by
    funext k'
    rw [uses_setSched]
    split
    · next h => rw [h, huses]
    · rfl
  refine { hi with uses := ?_, root := ?_, schedulerFiber := ?_, fresh := ?_ }
  · rw [heq]
    exact hi.uses
  · rw [heq]
    exact hi.root
  · intro r hr
    obtain ⟨hlive, hbelongs⟩ := hi.schedulerFiber r hr
    refine ⟨hlive, ?_⟩
    cases r <;> exact hbelongs
  · intro k' hk'
    have hne : k' ≠ k := fun h => absurd hk (Nat.not_lt.mpr (h ▸ hk'))
    exact (Function.update_of_ne hne ..).trans (hi.fresh k' hk')

theorem Inv.lt (hi : Inv s) (hc : s.scheds k = some c) : k < s.nscheds := by
  by_contra hk
  rw [hi.fresh k (Nat.not_lt.mp hk)] at hc
  cases hc

/-- No call changes whether a scheduler uses the thread. -/
theorem Inv.modify (hi : Inv s) (hc : s.scheds k = some c) (huse : c'.useCaller = c.useCaller) :
    Inv (s.setSched k (some c')) :=
  hi.setSched (hi.lt hc) (by simp [Thread.uses, hc, huse])

theorem Inv.start (hi : Inv s) (h : s.start k = some s') : Inv s' := by
  unfold Thread.start at h
  split at h
  · cases h
  · next c hc =>
    split at h
    · exact Option.some.inj h ▸ hi
    · obtain ⟨_, h⟩ := Option.ite_none_right_eq_some.mp h
      exact Option.some.inj h ▸ hi.modify hc rfl

theorem Inv.join (hi : Inv s) (h : s.join k = some s') : Inv s' := by
  unfold Thread.join at h
  split at h
  · cases h
  · next c hc => exact Option.some.inj h ▸ hi.modify hc rfl

theorem Inv.stop {drained drained' : Bool} (hi : Inv s) (h : s.stop k drained drained' = some s') :
    Inv s' := by
  unfold Thread.stop at h
  split at h
  · cases h
  · next c hc =>
    simp only at h
    have hset : Inv (s.setSched k (some { c with autoStop := true, stopping := true })) :=
      hi.modify hc rfl
    split at h
    · exact Option.some.inj h ▸ hset
    · split at h
      · cases h
      · split at h
        · next huse =>
          -- `run` sets `t_scheduler` to what it is already
          obtain ⟨t, ht, h⟩ := Option.map_eq_some_iff.mp h
          have hinv := hset.call ht
          have hscheduler : t.scheduler = some (.own k) := by
            rw [(Frame.call ht).scheduler]
            exact (hi.uses k).mp (by simp [Thread.uses, hc, huse.1])
          have hrun : t.run (.own k) true = t := by
            show { t with scheduler := some (.own k) } = t
            rw [← hscheduler]
          rw [hrun, ite_self] at h
          exact h ▸ hinv
        · exact hset.join h

/-- With a scheduler of its own the thread has a current one and a scheduler fiber. -/
theorem Inv.adopt {n : Nat} (hi : Inv s) (hn : s.nscheds = n) (hnone : s.scheduler = none)
    (huse : c.useCaller = true) :
    Inv { (s.setState (.root n) (some .init)).setSched n (some c) with
      scheduler := some (.own n), schedulerFiber := some (.root n), nscheds := n + 1 } := by
  have hset : Inv (s.setState (.root n) (some .init)) := hi.setState (.inl rfl)
  have huses : ∀ k, (s.setSched n (some c)).uses k ↔ k = n := by
    intro k
    rw [uses_setSched]
    split
    · next h => simp [h, huse]
    · next h => simp [h, hi.uses k, hnone]
  refine { hset with uses := ?_, root := ?_, schedulerFiber := ?_, fresh := ?_ }
  · intro k
    refine (huses k).trans ⟨fun h => h ▸ rfl, fun h => ?_⟩
    cases h
    rfl
  · intro k hk
    rw [(huses k).mp hk]
  · intro r hr
    cases hr
    exact ⟨live_set s _ .init, rfl⟩
  · intro k hk
    have hne : k ≠ n := Nat.ne_of_gt hk
    exact (Function.update_of_ne hne ..).trans (hi.fresh k (hn ▸ Nat.le_of_succ_le hk))

theorem Inv.construct {threads : Nat} {useCaller : Bool} (hi : Inv s)
    (h : s.construct threads useCaller = some s') : Inv s' := by
  -- room for the new scheduler
  have hnext : ∀ {t : Thread}, Inv t → Inv { t with nscheds := t.nscheds + 1 } := fun ht =>
    { ht with fresh := fun k hk => ht.fresh k (Nat.le_of_succ_le hk) }
  unfold Thread.construct at h
  simp only at h
  split at h
  · cases h
  · split at h
    · next huse =>
      obtain ⟨hnone, h⟩ := Option.ite_none_right_eq_some.mp h
      obtain rfl := Option.some.inj h
      exact hi.getThis.adopt (Frame.getThis s).nscheds hnone huse
    · next huse =>
      obtain rfl := Option.some.inj h
      have hnext : Inv { s with nscheds := s.nscheds + 1 } :=
        { hi with fresh := fun k hk => hi.fresh k (Nat.le_of_succ_le hk) }
      refine hnext.setSched (Nat.lt_succ_self _) ?_
      simp [Thread.uses, hi.fresh s.nscheds (Nat.le_refl _), huse]

/-- A scheduler that does not use the thread is not the one that `t_scheduler` points to. -/
theorem Inv.destroy {held : Bool} (hi : Inv s) (hc : s.scheds k = some c)
    (huse : c.useCaller = false) :
    Inv (s.destroy k c held) := by
  have huses : s.uses k = false := by simp [Thread.uses, hc, huse]
  have hother : s.scheduler ≠ some (.own k) := by
    rw [ne_eq, ← hi.uses k, huses]
    simp
  have heq : s.destroy k c held = s.setSched k none := by
    unfold Thread.destroy Thread.unset
    rw [if_neg hother, if_neg (by simp [huse])]
  exact heq ▸ hi.setSched (hi.lt hc) huses.symm

/-! ### Runs -/

theorem inv_step {l : Label} (hi : Inv s) (hkept : Kept s l) (h : step s l = some s') : Inv s' := by
  cases l with
  | fiber op => exact hi.fiberStep hkept h
  | construct threads useCaller => exact hi.construct h
  | start k => exact hi.start h
  | stop k drained drained' => exact hi.stop h
  | join k => exact hi.join h
  | destroy k held =>
    simp only [step] at h
    split at h
    · cases h
    · next c hc =>
      obtain ⟨hdestroyable, h⟩ := Option.ite_none_right_eq_some.mp h
      exact Option.some.inj h ▸ hi.destroy hc (hkept c hc hdestroyable)

theorem inv_init (pool : Bool) : Inv (thread pool).init := by
  cases pool with
  | false =>
    exact {
      fiber := fun _ => rfl
      threadFiber := fun r hr => by cases hr
      uses := fun k => by simp [thread, Thread.uses, Thread.initial]
      root := fun k hk => by cases hk
      schedulerFiber := fun r hr => by cases hr
      fresh := fun _ _ => rfl
      strayed := rfl }
  | true =>
    exact {
      fiber := fun h => by cases h
      threadFiber := fun r hr => by cases hr; exact ⟨rfl, 0, rfl⟩
      uses := fun k => by constructor <;> intro h <;> cases h
      root := fun k hk => by cases hk
      schedulerFiber := fun r hr => by cases hr; exact ⟨rfl, rfl⟩
      fresh := fun _ _ => rfl
      strayed := rfl }

theorem swapcontext_gone {r' : Ref} (hr : s.live r = false) :
    s.swapcontext (some r) (some r') = some { s with strayed := true } := by
  simp [Thread.swapcontext, hr]

/-- A fiber that has been destroyed saves its context when it switches for the last time. -/
theorem leave_gone {useCaller : Bool}
    (hr : (if useCaller then s.threadFiber else s.schedulerFiber).isSome) :
    ∃ s', (s.setState r none).leave r useCaller = some s' ∧ s'.strayed = true := by
  obtain ⟨r', hr⟩ := Option.isSome_iff_exists.mp hr
  let t := { s.setState r none with fiber := s.threadFiber }
  have hgone : t.live r = false := by
    show (s.setState r none).live r = false
    rw [live_setState, if_pos rfl]
    rfl
  refine ⟨{ t with strayed := true }, ?_, rfl⟩
  cases useCaller with
  | false =>
    show t.swapcontext (some r) s.schedulerFiber = _
    rw [show s.schedulerFiber = some r' from hr, swapcontext_gone hgone]
  | true =>
    show t.swapcontext (some r) s.threadFiber = _
    rw [show s.threadFiber = some r' from hr, swapcontext_gone hgone]

/-- The destructor of a scheduler that uses the thread leaves `t_scheduler_fiber` at its
    root fiber. -/
theorem inv_break {l : Label} (hi : Inv s) (hkept : ¬ Kept s l) :
    ∃ s', step s l = some s' ∧ ¬ Valid s' := by
  cases l with
  | destroy k held =>
    simp only [Kept, not_forall, Bool.not_eq_false] at hkept
    obtain ⟨c, hc, hdestroyable, huse⟩ := hkept
    refine ⟨s.destroy k c held, ?_, ?_⟩
    · simp only [step]
      split
      · next hnone => rw [hnone] at hc; cases hc
      · next c' hc' =>
        obtain rfl : c' = c := Option.some.inj (hc'.symm.trans hc)
        exact if_pos hdestroyable
    · intro hvalid
      have huses : s.uses k := by simp [Thread.uses, hc, huse]
      have hunset : s.unset k = { s with scheduler := none } := if_pos ((hi.uses k).mp huses)
      have hframe := Frame.destroy s k c held
      rw [hunset] at hframe
      have hpointer : (s.destroy k c held).schedulerFiber = some (.root k) :=
        hframe.schedulerFiber.trans (hi.root k huses)
      have hreset : (s.destroy k c held).scheduler = none := hframe.scheduler
      have hbelongs : (s.destroy k c held).scheduler = some (.own k) :=
        (hvalid.schedulerFiber _ hpointer).2
      -- the pointer to the scheduler is null by now
      rw [hreset] at hbelongs
      cases hbelongs
  | fiber op =>
    cases op with
    | returnLast f st useCaller =>
      have hreturnable : s.Returnable (.user f) st useCaller := not_not.mp hkept
      obtain ⟨s', hs', hstrayed⟩ := leave_gone hreturnable.2.2
      refine ⟨s', (if_pos hreturnable).trans hs', fun hvalid => ?_⟩
      rw [hvalid.strayed] at hstrayed
      cases hstrayed
    | _ => exact absurd trivial hkept
  | _ => exact absurd trivial hkept

end inv

/-! ### Every run -/

/-- For every sequence of calls, on any thread: in every state `t_scheduler` is null or a
    scheduler that is there, `t_scheduler_fiber` is null or a fiber that is there and belongs
    to it or to the thread, and no context of a destroyed fiber has been saved or loaded, if
    and only if no scheduler with `use_caller` is destroyed and no body ends in a fiber
    that nobody has a reference to. -/
theorem valid_iff (pool : Bool) (ls : List Label) :
    (thread pool).Visits ls Valid ↔ (thread pool).Steps ls Kept :=
  System.visits_iff_steps (inv_init pool) (fun _ hi => hi.valid)
    (fun _ _ _ hi hkept h => inv_step hi hkept h) (fun _ _ hi hkept => inv_break hi hkept) ls

/-- A scheduler with `use_caller` is constructed and destroyed, and a fiber is swapped in. -/
theorem not_valid_destroyed :
    ¬ ∀ (pool : Bool) (ls : List Label), (thread pool).Visits ls Valid := by
  intro h
  have hlast :=
    h false [.construct 1 true, .destroy 0 false, .fiber .newFiber, .fiber (.swapIn (.user 0))]
    _ _ List.prefix_rfl rfl
  have hstrayed := hlast.strayed
  cases hstrayed

/-! ### The pointer that is reset -/

/-- `t_scheduler` does not dangle. -/
def Current (s : Thread) : Prop :=
  ∀ k, s.scheduler = some (.own k) → (s.scheds k).isSome

section current
variable {s s' : Thread} {k : Nat} {c : Sched}

theorem Current.frame (hs : Current s) (h : Frame s s') : Current s' := by
  intro k hk
  rw [h.scheds]
  exact hs k (h.scheduler ▸ hk)

theorem Current.setSched (hs : Current s) : Current (s.setSched k (some c)) := by
  intro k' hk'
  show (Function.update s.scheds k (some c) k').isSome
  rw [Function.update_apply]
  split
  · rfl
  · exact hs k' hk'

theorem Current.join (hs : Current s) (h : s.join k = some s') : Current s' := by
  unfold Thread.join at h
  split at h
  · cases h
  · exact Option.some.inj h ▸ hs.setSched

theorem Current.stop {drained drained' : Bool} (hs : Current s)
    (h : s.stop k drained drained' = some s') :
    Current s' := by
  unfold Thread.stop at h
  split at h
  · cases h
  · next c hc =>
    simp only at h
    have hset :
        Current (s.setSched k (some { c with autoStop := true, stopping := true })) := hs.setSched
    split at h
    · exact Option.some.inj h ▸ hset
    · split at h
      · cases h
      · split at h
        · obtain ⟨t, ht, h⟩ := Option.map_eq_some_iff.mp h
          have hcall := hset.frame (.call ht)
          have hthere : (t.scheds k).isSome := by
            rw [(Frame.call ht).scheds]
            simp [Thread.setSched]
          subst h
          split
          · -- `setThis()` in `run`
            intro k' hk'
            cases hk'
            exact hthere
          · exact hcall
        · exact hset.join h

theorem Current.destroy {held : Bool} (hs : Current s) : Current (s.destroy k c held) := by
  suffices hunset : Current ((s.unset k).setSched k none) from hunset.frame (.destroy s k c held)
  unfold Thread.unset
  split
  · intro k' hk'
    cases hk'
  · next hother =>
    intro k' hk'
    have hne : k' ≠ k := fun h => hother (h ▸ hk')
    show (Function.update s.scheds k none k').isSome
    rw [Function.update_of_ne hne]
    exact hs k' hk'

theorem current_step {l : Label} (hs : Current s) (h : step s l = some s') : Current s' := by
  cases l with
  | fiber op => exact hs.frame (.fiberStep h)
  | construct threads useCaller =>
    simp only [step, Thread.construct] at h
    split at h
    · cases h
    · split at h
      · obtain ⟨_, h⟩ := Option.ite_none_right_eq_some.mp h
        obtain rfl := Option.some.inj h
        intro k hk
        cases hk
        simp [Thread.setSched]
      · exact Option.some.inj h ▸ hs.setSched
  | start k =>
    simp only [step, Thread.start] at h
    split at h
    · cases h
    · split at h
      · exact Option.some.inj h ▸ hs
      · obtain ⟨_, h⟩ := Option.ite_none_right_eq_some.mp h
        exact Option.some.inj h ▸ hs.setSched
  | stop k drained drained' => exact hs.stop h
  | join k => exact hs.join h
  | destroy k held =>
    simp only [step] at h
    split at h
    · cases h
    · next c hc =>
      obtain ⟨_, h⟩ := Option.ite_none_right_eq_some.mp h
      exact Option.some.inj h ▸ hs.destroy

/-- Whatever is called, `t_scheduler` is null or a scheduler that is there. -/
theorem scheduler_live (pool : Bool) : ∀ s, (thread pool).Reachable s →
    ∀ p, s.scheduler = some p → s.alive p := by
  intro s hs p hp
  have hcurrent : Current s := by
    refine System.invariant ?_ (fun _ _ _ => current_step) s hs
    intro k hk
    cases pool <;> cases hk
  cases p with
  | pool => rfl
  | own k => exact hcurrent k hp

end current

end Gwn.Fiber.Locals
