import Gwn.Framework.System
import Mathlib.Logic.Function.Basic

/-! # The N-M fiber scheduler

    `Fiber` (gwn/fiber.cc) and `Scheduler` (gwn/scheduler.cc, scheduler.h) as
    one labelled transition system. The parties are the workers (each executes
    `Scheduler::run`, on a pool thread or, for `use_caller`, inside
    `m_rootFiber` on the caller's thread), the thread that owns the scheduler
    (it calls `start` and `stop`), and all other threads (they call `schedule`).

    One step is one access to data that another thread may see: a section under
    `m_mutex`, a read or write of a fiber's `m_state`, a context save or load.
    The code that runs inside a fiber is not modelled: it performs actions
    (`Act`) chosen by the label, and `Prog.resume` says which actions a piece
    of code may perform next and how it continues.

    `tickle` only logs and `m_idleThreadCount` is never read; both are left out. -/

namespace Gwn.Scheduler

/-! ### Fibers -/

/-- `Fiber::State`. -/
inductive FiberState where
  | init | hold | exec | term | ready | except
deriving DecidableEq, Repr

/-- `TERM` or `EXCEPT`: the body has returned or thrown. -/
def FiberState.finished : FiberState → Bool
  | .term | .except => true
  | _ => false

/-- The states in which the assertion of `Fiber::reset` holds. -/
def FiberState.resettable : FiberState → Bool
  | .term | .except | .init => true
  | _ => false

/-- What a `std::function<void()>` holds, at the point it has reached: the loop
    of `Scheduler::idle`, or user code. -/
inductive Code (K : Type) where
  /-- `while(!stopping())`, about to test. -/
  | idleTest
  /-- Inside the loop, about to call `YieldToHold`. -/
  | idleHold
  /-- The loop is left. -/
  | idleDone
  | user (k : K)
deriving DecidableEq

/-- Where a context resumes when it is switched to. -/
inductive Point (K : Type) where
  /-- The start of `MainFunc`, as set up by `makecontext`. -/
  | entry
  /-- Inside `m_cb`. -/
  | body (c : Code K)
  /-- Behind the last `swapOut` of `MainFunc`: only the "never reach" assertion is left. -/
  | done
deriving DecidableEq

structure Fiber (K : Type) where
  /-- `m_state`. -/
  state : FiberState
  /-- `m_cb`; `none` is `nullptr`. -/
  cb : Option (Code K)
  /-- The content of `m_ctx`: what the last `makecontext` or `swapcontext` stored. -/
  ctx : Point K
  /-- Whether `ctx` is current: false from the switch into the fiber until `swapOut` saved it. -/
  saved : Bool
  /-- Created by `run` as its `idle_fiber`. -/
  idle : Bool

/-- `Fiber::Fiber(cb)`. -/
def Fiber.new {K : Type} (cb : Code K) (idle : Bool) : Fiber K :=
  { state := .init, cb := some cb, ctx := .entry, saved := true, idle := idle }

/-- `Fiber::reset(cb)`, behind its assertions. -/
def Fiber.reset {K : Type} (x : Fiber K) (cb : Option (Code K)) : Fiber K :=
  { x with state := .init, cb := cb, ctx := .entry, saved := true }

/-! ### The task queue -/

/-- The two ways to build a `FiberAndThread`: from a `Fiber::ptr` or from a callback. -/
inductive Task (K : Type) where
  | fiber (f : Nat)
  | cb (k : K)
deriving DecidableEq

/-- `Scheduler::FiberAndThread`; `thread = -1` is any thread. -/
structure FiberAndThread (K : Type) where
  task : Task K
  thread : Int
deriving DecidableEq

/-- `Scheduler::scheduleNoLock`. Its result only decides about `tickle`; an
    empty `Fiber::ptr` or callback is not pushed. -/
def scheduleNoLock {K : Type} (q : List (FiberAndThread K)) (fc : Option (Task K)) (thread : Int) :
    List (FiberAndThread K) :=
  match fc with
  | some t => q ++ [⟨t, thread⟩]
  | none => q

/-- The scan of `run` passes over entries pinned to another thread and over
    fibers in `EXEC`. -/
def FiberAndThread.skipped {K : Type} (heap : Nat → Fiber K) (tid : Int)
    (e : FiberAndThread K) : Bool :=
  if e.thread ≠ -1 ∧ e.thread ≠ tid then true
  else match e.task with
    | .fiber f => (heap f).state = .exec
    | .cb _ => false

/-- The locked scan of `run` on thread `tid`: the first entry that is not
    skipped, and the queue it leaves behind. -/
def scanQueue {K : Type} (heap : Nat → Fiber K) (tid : Int) :
    List (FiberAndThread K) → Option (FiberAndThread K × List (FiberAndThread K))
  | [] => none
  | e :: q =>
    if e.skipped heap tid then (scanQueue heap tid q).map fun (x, q') => (x, e :: q')
    else some (e, q)

/-! ### Workers -/

/-- The three places of `run` that call `swapIn`. -/
inductive Branch where
  | task | cb | idle
deriving DecidableEq, Repr

/-- From `swapIn` to the end of the bookkeeping that `run` does after it. -/
inductive Phase (K : Type) where
  /-- `swapIn`: `gwn_ASSERT(m_state != EXEC)`. -/
  | assertNotExec
  /-- `swapIn`: `m_state = EXEC`. -/
  | setExec
  /-- `swapIn`: `swapcontext` into `m_ctx`. -/
  | switchIn
  /-- The fiber's context is executing, at this point. -/
  | inside (p : Point K)
  /-- `YieldToReady` / `YieldToHold`: about to write `m_state`. -/
  | yielding (st : FiberState) (c : Code K)
  /-- `swapOut`: about to save the context, to be resumed at `p`. -/
  | switchOut (p : Point K)
  /-- Back in the worker's own context: leave `swapIn`, `--m_activeThreadCount`. -/
  | returned
  /-- `getState() == READY`. -/
  | testReady
  /-- `schedule(ft.fiber)` / `schedule(cb_fiber)`. -/
  | requeue
  /-- `getState()` against `TERM` and `EXCEPT`. -/
  | testDone
  /-- `setState(HOLD)`. -/
  | setHold
  /-- `cb_fiber->reset(nullptr)`. -/
  | recycle
deriving DecidableEq

/-- Program counter of a worker. -/
inductive PC (K : Type) where
  /-- `run` is entered; `idle_fiber` is not created yet. -/
  | prelude
  /-- Top of the loop: the locked scan. -/
  | scan
  /-- The scan is over, `ft` is known; about to choose the branch. -/
  | check (ft : Option (Task K))
  /-- Callback branch: `cb_fiber->reset(ft.cb)` or a new `cb_fiber`. -/
  | prepare (k : K)
  /-- Idle branch: `idle_fiber->getState() == TERM`. -/
  | idleTest
  /-- At work on fiber `f`. -/
  | on (b : Branch) (f : Nat) (ph : Phase K)
  /-- `run` has returned (or the thread never existed). -/
  | exited
deriving DecidableEq

/-- The thread of this worker can be joined. -/
def PC.hasExited {K : Type} : PC K → Bool
  | .exited => true
  | _ => false

structure Worker (K : Type) where
  /-- `GetThreadId()`. -/
  tid : Int
  pc : PC K
  /-- The local `cb_fiber`. -/
  cbFiber : Option Nat
  /-- The local `idle_fiber`. -/
  idleFiber : Option Nat

def Worker.absent {K : Type} : Worker K :=
  { tid := -1, pc := .exited, cbFiber := none, idleFiber := none }

/-- A thread about to execute `run`. -/
def Worker.fresh {K : Type} (tid : Int) : Worker K :=
  { tid := tid, pc := .prelude, cbFiber := none, idleFiber := none }

/-! ### The whole system -/

/-- Where the owner of the scheduler is inside `stop`. -/
inductive Ctl where
  /-- Outside `start` and `stop`. -/
  | user
  /-- Line 112: a lone caller thread whose root fiber is not running? -/
  | single
  | singleSet
  /-- `if(stopping()) return`. -/
  | singleTest
  /-- `m_stopping = true`. -/
  | setStopping
  /-- `if(m_rootFiber) if(!stopping())`. -/
  | rootTest
  /-- `m_rootFiber->call()`. -/
  | callRoot
  /-- The root fiber is running `run` as this worker. -/
  | inRoot (w : Nat)
  /-- `thrs.swap(m_threads)`. -/
  | swapThreads
  /-- `join` of the threads that are left. -/
  | join (ws : List Nat)
deriving DecidableEq

/-- The assertions of fiber.cc and scheduler.cc; a failed one ends the process. -/
inductive Fault where
  /-- `swapIn`: `m_state != EXEC`. -/
  | swapInExec (f : Nat)
  /-- `YieldToReady` / `YieldToHold`: `cur->m_state == EXEC`. -/
  | yieldNotExec (f : Nat)
  /-- `reset`: `m_state` is `TERM`, `EXCEPT` or `INIT`. -/
  | resetState (f : Nat)
  /-- End of `MainFunc`. -/
  | neverReach (f : Nat)
  /-- `call`: `m_state != EXEC` on the root fiber. -/
  | callExec
  /-- End of `CallerMainFunc`. -/
  | rootNeverReach
  /-- `start`: `m_threads.empty()`. -/
  | startThreads
deriving DecidableEq, Repr

structure State (K : Type) where
  /-- The fiber objects. -/
  heap : Nat → Fiber K
  /-- Fibers with ids below `nfib` have been created. -/
  nfib : Nat
  /-- `m_fibers`. -/
  fibers : List (FiberAndThread K)
  /-- `m_activeThreadCount`. -/
  activeThreadCount : Nat
  /-- `m_stopping`. -/
  stoppingFlag : Bool
  /-- `m_autoStop`. -/
  autoStop : Bool
  /-- `m_threadCount`. -/
  threadCount : Nat
  /-- `m_threads`. -/
  threads : List Nat
  workers : Nat → Worker K
  /-- Workers with ids below `nworkers` have been created. -/
  nworkers : Nat
  /-- `m_rootThread`. -/
  rootThread : Int
  /-- The state of `m_rootFiber`; `none` without `use_caller`. -/
  rootFiber : Option FiberState
  ctl : Ctl
  fault : Option Fault

/-- What the code inside a fiber can do. -/
inductive Act (K : Type) where
  /-- `schedule(fc, thread)`. -/
  | schedule (fc : Option (Task K)) (thread : Int)
  /-- `new Fiber(k)`, which becomes `f`. -/
  | newFiber (k : K) (f : Nat)
  /-- `stopping()` returned `v` (protected: `idle` and its overrides). -/
  | stopping (v : Bool)
  | yieldToReady
  | yieldToHold
  | ret
  | throw
deriving DecidableEq

/-- The code that runs inside fibers: how user code continues after an action
    (`none` if it does not perform it), and `idle`, which may be overridden. -/
structure Prog (K : Type) where
  resume : K → Act K → Option K
  idle : Code K := .idleTest

def Code.resume {K : Type} (P : Prog K) : Code K → Act K → Option (Code K)
  | .idleTest, .stopping false => some .idleHold
  | .idleTest, .stopping true => some .idleDone
  | .idleHold, .yieldToHold => some .idleTest
  | .idleDone, .ret => some .idleDone
  | .user k, a => (P.resume k a).map .user
  | _, _ => none

inductive Label (K : Type) where
  /-- The owner calls `start()`; the new threads have these ids. -/
  | start (tids : List Int)
  /-- The owner calls `stop()`. -/
  | stop
  /-- The owner's next step inside `stop()`. -/
  | ctl
  /-- The next step of worker `w` inside `run`, `swapIn`, `swapOut` or `MainFunc`. -/
  | work (w : Nat)
  /-- The code of the fiber that worker `w` executes does `a`. -/
  | act (w : Nat) (a : Act K)
  /-- Another thread does `a`. -/
  | ext (a : Act K)
deriving DecidableEq

/-! ### State updates -/

section updates
variable {K : Type}

namespace State

def setWorker (s : State K) (w : Nat) (x : Worker K) : State K :=
  { s with workers := Function.update s.workers w x }

def setPC (s : State K) (w : Nat) (pc : PC K) : State K :=
  s.setWorker w { s.workers w with pc := pc }

def setFiber (s : State K) (f : Nat) (x : Fiber K) : State K :=
  { s with heap := Function.update s.heap f x }

/-- `m_state` of `f` becomes `st`. -/
def setState (s : State K) (f : Nat) (st : FiberState) : State K :=
  s.setFiber f { s.heap f with state := st }

/-- Create the next fiber. -/
def alloc (s : State K) (x : Fiber K) : State K :=
  { s.setFiber s.nfib x with nfib := s.nfib + 1 }

/-- `schedule(fc, thread)`: `scheduleNoLock` under the lock. -/
def schedule (s : State K) (fc : Option (Task K)) (thread : Int) : State K :=
  { s with fibers := scheduleNoLock s.fibers fc thread }

/-- `Scheduler::stopping`. -/
def stopping (s : State K) : Bool :=
  s.autoStop && s.stoppingFlag && s.fibers.isEmpty && s.activeThreadCount == 0

/-- A caller of `schedule` has a `Fiber::ptr` to what it created itself or got
    from `GetThis()`; the idle fibers are locals of `run`. -/
def Schedulable (s : State K) : Option (Task K) → Prop
  | some (.fiber f) => f < s.nfib ∧ (s.heap f).idle = false
  | _ => True

instance (s : State K) (fc : Option (Task K)) : Decidable (s.Schedulable fc) := by
  unfold Schedulable
  split <;> infer_instance

end State

end updates

/-! ### Steps -/

section steps
variable {K : Type}

/-- One step of worker `w` on fiber `f`, between `swapIn` and the end of the bookkeeping. -/
def phaseStep (s : State K) (w : Nat) (b : Branch) (f : Nat) :
    Phase K → Option (State K)
  | .assertNotExec =>
    if (s.heap f).state = .exec then some { s with fault := some (.swapInExec f) }
    else some (s.setPC w (.on b f .setExec))
  | .setExec => some ((s.setState f .exec).setPC w (.on b f .switchIn))
  | .switchIn =>
    some ((s.setFiber f { s.heap f with saved := false }).setPC w
      (.on b f (.inside (s.heap f).ctx)))
  | .inside .entry =>
    match (s.heap f).cb with
    | some c => some (s.setPC w (.on b f (.inside (.body c))))
    | none => -- calling an empty std::function throws, and MainFunc catches it
      some ((s.setState f .except).setPC w (.on b f (.switchOut .done)))
  | .inside (.body _) => none
  | .inside .done => some { s with fault := some (.neverReach f) }
  | .yielding st c => some ((s.setState f st).setPC w (.on b f (.switchOut (.body c))))
  | .switchOut p =>
    some ((s.setFiber f { s.heap f with ctx := p, saved := true }).setPC w (.on b f .returned))
  | .returned =>
    match b with
    | .idle => some (s.setPC w (.on b f .testDone))
    | _ => some ({ s with activeThreadCount := s.activeThreadCount - 1 }.setPC w
        (.on b f .testReady))
  | .testReady =>
    if (s.heap f).state = .ready then some (s.setPC w (.on b f .requeue))
    else some (s.setPC w (.on b f .testDone))
  | .requeue =>
    let x := { s.workers w with pc := .scan }
    match b with
    | .cb => some ((s.schedule (some (.fiber f)) (-1)).setWorker w { x with cbFiber := none })
    | _ => some ((s.schedule (some (.fiber f)) (-1)).setWorker w x)
  | .testDone =>
    if (s.heap f).state.finished then
      match b with
      | .cb => some (s.setPC w (.on b f .recycle))
      | _ => some (s.setPC w .scan)
    else some (s.setPC w (.on b f .setHold))
  | .setHold =>
    let x := { s.workers w with pc := .scan }
    match b with
    | .cb => some ((s.setState f .hold).setWorker w { x with cbFiber := none })
    | _ => some ((s.setState f .hold).setWorker w x)
  | .recycle =>
    if (s.heap f).state.resettable then
      some ((s.setFiber f ((s.heap f).reset none)).setPC w .scan)
    else some { s with fault := some (.resetState f) }

/-- One step of worker `w` in `run`. -/
def workStep (P : Prog K) (s : State K) (w : Nat) : Option (State K) :=
  match (s.workers w).pc with
  | .prelude =>
    some ((s.alloc (.new P.idle true)).setWorker w
      { s.workers w with pc := .scan, idleFiber := some s.nfib })
  | .scan =>
    match scanQueue s.heap (s.workers w).tid s.fibers with
    | none => some (s.setPC w (.check none))
    | some (e, q) =>
      some ({ s with fibers := q, activeThreadCount := s.activeThreadCount + 1 }.setPC w
        (.check (some e.task)))
  | .check (some (.fiber f)) =>
    if (s.heap f).state.finished then some (s.setPC w .idleTest)
    else some (s.setPC w (.on .task f .assertNotExec))
  | .check (some (.cb k)) => some (s.setPC w (.prepare k))
  | .check none => some (s.setPC w .idleTest)
  | .prepare k =>
    match (s.workers w).cbFiber with
    | some g =>
      if (s.heap g).state.resettable then
        some ((s.setFiber g ((s.heap g).reset (some (.user k)))).setPC w (.on .cb g .assertNotExec))
      else some { s with fault := some (.resetState g) }
    | none =>
      some ((s.alloc (.new (.user k) false)).setWorker w
        { s.workers w with pc := .on .cb s.nfib .assertNotExec, cbFiber := some s.nfib })
  | .idleTest =>
    match (s.workers w).idleFiber with
    | some f =>
      if (s.heap f).state = .term then some (s.setPC w .exited)
      else some (s.setPC w (.on .idle f .assertNotExec))
    | none => none
  | .on b f ph => phaseStep s w b f ph
  | .exited => none

/-- The code inside fiber `f`, run by worker `w` and at `c`, does `a`. -/
def codeStep (P : Prog K) (s : State K) (w : Nat) (b : Branch) (f : Nat) (c : Code K)
    (a : Act K) : Option (State K) :=
  (c.resume P a).bind fun c' =>
    match a with
    | .schedule fc thread =>
      if s.Schedulable fc then
        some ((s.schedule fc thread).setPC w (.on b f (.inside (.body c'))))
      else none
    | .newFiber k g =>
      if g = s.nfib then
        some ((s.alloc (.new (.user k) false)).setPC w (.on b f (.inside (.body c'))))
      else none
    | .stopping v =>
      if v = s.stopping then some (s.setPC w (.on b f (.inside (.body c')))) else none
    | .yieldToReady =>
      if (s.heap f).state = .exec then some (s.setPC w (.on b f (.yielding .ready c')))
      else some { s with fault := some (.yieldNotExec f) }
    | .yieldToHold =>
      if (s.heap f).state = .exec then some (s.setPC w (.on b f (.yielding .hold c')))
      else some { s with fault := some (.yieldNotExec f) }
    | .ret =>
      some ((s.setFiber f { s.heap f with cb := none, state := .term }).setPC w
        (.on b f (.switchOut .done)))
    | .throw => some ((s.setState f .except).setPC w (.on b f (.switchOut .done)))

def actStep (P : Prog K) (s : State K) (w : Nat) (a : Act K) : Option (State K) :=
  match (s.workers w).pc with
  | .on b f (.inside (.body c)) => codeStep P s w b f c a
  | _ => none

/-- Another thread can schedule and create fibers. -/
def extStep (s : State K) : Act K → Option (State K)
  | .schedule fc thread => if s.Schedulable fc then some (s.schedule fc thread) else none
  | .newFiber k g => if g = s.nfib then some (s.alloc (.new (.user k) false)) else none
  | _ => none

/-- `Scheduler::start`, which holds the lock throughout. -/
def startStep (s : State K) (tids : List Int) : Option (State K) :=
  if s.ctl ≠ .user ∨ tids.length ≠ s.threadCount then none
  else if !s.stoppingFlag then some s
  else if s.threads ≠ [] then some { s with fault := some .startThreads }
  else some { s with
    stoppingFlag := false
    workers := fun w =>
      if s.nworkers ≤ w ∧ w < s.nworkers + tids.length then
        .fresh (tids.getD (w - s.nworkers) (-1))
      else s.workers w
    nworkers := s.nworkers + tids.length
    threads := List.range' s.nworkers tids.length }

/-- `Scheduler::stop` up to and including `m_autoStop = true`. -/
def stopStep (s : State K) : Option (State K) :=
  if s.ctl = .user then some { s with autoStop := true, ctl := .single } else none

/-- One step of the owner inside `stop`. -/
def ctlStep (s : State K) : Option (State K) :=
  match s.ctl with
  | .user => none
  | .single =>
    if s.threadCount = 0 ∧ (s.rootFiber = some .term ∨ s.rootFiber = some .init) then
      some { s with ctl := .singleSet }
    else some { s with ctl := .setStopping }
  | .singleSet => some { s with stoppingFlag := true, ctl := .singleTest }
  | .singleTest =>
    if s.stopping then some { s with ctl := .user } else some { s with ctl := .setStopping }
  | .setStopping => some { s with stoppingFlag := true, ctl := .rootTest }
  | .rootTest =>
    if s.rootFiber.isSome ∧ !s.stopping then some { s with ctl := .callRoot }
    else some { s with ctl := .swapThreads }
  | .callRoot =>
    match s.rootFiber with
    | some .exec => some { s with fault := some .callExec }
    | some .init =>
      some { s.setWorker s.nworkers (.fresh s.rootThread) with
        rootFiber := some .exec, nworkers := s.nworkers + 1, ctl := .inRoot s.nworkers }
    | _ => some { s with fault := some .rootNeverReach }
  | .inRoot w =>
    if (s.workers w).pc.hasExited then
      some { s with rootFiber := some .term, ctl := .swapThreads }
    else none
  | .swapThreads => some { s with ctl := .join s.threads, threads := [] }
  | .join [] => some { s with ctl := .user }
  | .join (w :: ws) =>
    if (s.workers w).pc.hasExited then some { s with ctl := .join ws } else none

/-- One step of the whole system. A failed assertion has ended the process. -/
def step (P : Prog K) (s : State K) (l : Label K) : Option (State K) :=
  if s.fault.isSome then none
  else match l with
    | .start tids => startStep s tids
    | .stop => stopStep s
    | .ctl => ctlStep s
    | .work w => workStep P s w
    | .act w a => actStep P s w a
    | .ext a => extStep s a

/-- `Scheduler::Scheduler(threads, use_caller)` on the thread `caller`: with
    `use_caller` one of the workers is the caller itself. -/
def State.initial (threads : Nat) (useCaller : Bool) (caller : Int) : State K :=
  { heap := fun _ => { state := .init, cb := none, ctx := .entry, saved := true, idle := false }
    nfib := 0
    fibers := []
    activeThreadCount := 0
    stoppingFlag := true
    autoStop := false
    threadCount := if useCaller then threads - 1 else threads
    threads := []
    workers := fun _ => .absent
    nworkers := 0
    rootThread := if useCaller then caller else -1
    rootFiber := if useCaller then some .init else none
    ctl := .user
    fault := none }

/-- The scheduler running the code `P` in its fibers. -/
def scheduler (P : Prog K) (threads : Nat) (useCaller : Bool) (caller : Int) :
    LTS.System (State K) (Label K) where
  init := .initial threads useCaller caller
  step := step P

end steps

/-! ### Straight-line code -/

/-- Code that performs fixed actions in a fixed order; it serves the concrete runs. -/
inductive Script where
  | ret
  | throw
  | yieldToReady (next : Script)
  | yieldToHold (next : Script)
  | schedule (f : Nat) (next : Script)
deriving DecidableEq, Repr

def Script.resume : Script → Act Script → Option Script
  | .ret, .ret => some .ret
  | .throw, .throw => some .throw
  | .yieldToReady k, .yieldToReady => some k
  | .yieldToHold k, .yieldToHold => some k
  | .schedule f k, .schedule (some (.fiber g)) (-1) => if g = f then some k else none
  | _, _ => none

def scripted : Prog Script :=
  { resume := Script.resume }

end Gwn.Scheduler
