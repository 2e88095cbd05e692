import Gwn.Scheduler.Step
import Mathlib.Data.List.Induction

/-! # The current fiber

    The thread-local pointers of fiber.cc and scheduler.cc, followed through the runs
    of the scheduler. `swapOut` sets `t_fiber` from `t_threadFiber` and switches to
    `t_scheduler_fiber`. These are one fiber on a pool thread. On the thread of a
    `use_caller` scheduler they are two, and `t_fiber` is wrong from the first
    `swapOut` on (`not_current`, `current_iff`). -/

namespace Gwn.Scheduler

open LTS

variable {K : Type} {P : Prog K}

/-! ### Thread-local pointers -/

/-- The threads that a scheduler drives. -/
inductive Thread where
  /-- The thread that has made the scheduler, with `use_caller`. -/
  | caller
  /-- The thread of the pool that is worker `w`. -/
  | pool (w : Nat)
deriving DecidableEq

/-- `Fiber*`. -/
inductive Ref where
  /-- The main fiber of a thread. -/
  | main (t : Thread)
  /-- `m_rootFiber`. -/
  | root
  | fiber (f : Nat)
deriving DecidableEq

/-- The thread-local pointers of fiber.cc and scheduler.cc, and where the thread really is. -/
structure Locals where
  /-- `t_fiber`. -/
  fiber : Option Ref
  /-- `t_threadFiber`. -/
  threadFiber : Option Ref
  /-- `t_scheduler_fiber`. -/
  schedulerFiber : Option Ref
  /-- The fiber in whose context the thread is, as `swapcontext` left it. -/
  context : Option Ref
deriving DecidableEq

namespace Locals

def blank : Locals :=
  { fiber := none, threadFiber := none, schedulerFiber := none, context := none }

/-- `Fiber::SetThis`. -/
def setThis (l : Locals) (f : Ref) : Locals :=
  { l with fiber := some f }

/-- `Fiber::GetThis`. The first call on a thread makes a main fiber of the code it is in. -/
def getThis (l : Locals) (t : Thread) : Locals :=
  match l.fiber with
  | some _ => l
  | none =>
    { l with fiber := some (.main t), threadFiber := some (.main t), context := some (.main t) }

/-- The `swapcontext` of `swapIn`. -/
def enter (l : Locals) (f : Ref) : Locals :=
  { l with context := some f }

/-- `Fiber::swapOut`. -/
def swapOut (l : Locals) : Locals :=
  { l with fiber := l.threadFiber, context := l.schedulerFiber }

/-- `Fiber::call`. -/
def call (l : Locals) (f : Ref) : Locals :=
  (l.setThis f).enter f

/-- `Fiber::back`. -/
def back (l : Locals) : Locals :=
  { l with fiber := l.threadFiber, context := l.threadFiber }

/-- The start of `run` on a pool thread: `t_scheduler_fiber = Fiber::GetThis().get()`. -/
def enterRun (l : Locals) (t : Thread) : Locals :=
  { l.getThis t with schedulerFiber := (l.getThis t).fiber }

/-- `Scheduler::Scheduler` with `use_caller`. -/
def useCaller : Locals :=
  { blank.getThis .caller with schedulerFiber := some .root }

end Locals

/-! ### Following a run -/

/-- The thread-local pointers of all threads, and the thread each worker is on. -/
structure Threads where
  locals : Thread → Locals
  home : Nat → Thread

def Threads.set (h : Threads) (t : Thread) (l : Locals) : Threads :=
  { h with locals := Function.update h.locals t l }

@[simp] theorem Threads.set_self (h : Threads) (t : Thread) (l : Locals) :
    (h.set t l).locals t = l := by
  simp [Threads.set]

@[simp] theorem Threads.set_ne (h : Threads) {t t' : Thread} (l : Locals) (hne : t' ≠ t) :
    (h.set t l).locals t' = h.locals t' := by
  simp [Threads.set, hne]

theorem Threads.set_caller (h : Threads) (l : Locals) (w : Nat) :
    (h.set .caller l).locals (.pool w) = h.locals (.pool w) :=
  h.set_ne l nofun

def Threads.initial (useCaller : Bool) : Threads :=
  { locals := fun t => if t = .caller ∧ useCaller = true then .useCaller else .blank
    home := .pool }

/-- The locals of the thread that worker `w` is on. -/
def Threads.of (h : Threads) (w : Nat) : Locals :=
  h.locals (h.home w)

/-- What the next step of a worker does to the pointers of its thread `t`;
    `onPool` is `GetThreadId() != m_rootThread`. -/
def Locals.after (l : Locals) (onPool : Bool) (t : Thread) : PC K → Locals
  | .prelude => if onPool then l.enterRun t else l
  | .on _ f .assertNotExec => l.setThis (.fiber f)
  | .on _ f .switchIn => l.enter (.fiber f)
  | .on _ _ (.switchOut _) => l.swapOut
  | _ => l

/-- A step of worker `w`. -/
def Threads.after (h : Threads) (s : State K) (w : Nat) : Threads :=
  h.set (h.home w)
    ((h.of w).after ((s.workers w).tid ≠ s.rootThread) (h.home w) (s.workers w).pc)

/-- What a step does to the pointers. -/
def track (h : Threads) (s : State K) : Label K → Threads
  | .ctl =>
    match s.ctl, s.rootFiber with
    | .callRoot, some .init =>
      { h.set .caller ((h.locals .caller).call .root) with
        home := Function.update h.home s.nworkers .caller }
    | .inRoot w, _ =>
      if (s.workers w).pc.hasExited then h.set .caller (h.locals .caller).back else h
    | _, _ => h
  | .work w => h.after s w
  | _ => h

/-- The scheduler with the pointers of its threads. -/
def tracked (P : Prog K) (threads : Nat) (useCaller : Bool) (caller : Int) :
    System (State K × Threads) (Label K) :=
  (scheduler P threads useCaller caller).withHistory (.initial useCaller) track

/-! ### What is claimed -/

/-- Not inside `swapIn`, between `SetThis` and `swapcontext`. -/
def PC.settled : PC K → Bool
  | .on _ _ .setExec | .on _ _ .switchIn => false
  | _ => true

/-- No worker on the thread is inside `swapIn`. -/
def Settled (p : State K × Threads) (t : Thread) : Prop :=
  ∀ w, p.2.home w = t → (p.1.workers w).pc.settled = true

/-- `t_fiber` points to the fiber in whose context the thread is. -/
def CurrentRight (p : State K × Threads) : Prop :=
  p.1.fault = none → ∀ t, Settled p t → (p.2.locals t).fiber = (p.2.locals t).context

/-- About to be switched out of a fiber. -/
def PC.swapsOut : PC K → Bool
  | .on _ _ (.switchOut _) => true
  | _ => false

/-- `swapOut` on the caller's thread: a task or idle fiber goes back to the root fiber. -/
def ReturnsToRoot (s : State K) : Label K → Prop
  | .work w => s.ctl = .inRoot w ∧ (s.workers w).pc.swapsOut = true
  | _ => False

/-- The system gives new threads ids of their own; -1 is none. -/
def OwnIds (caller : Int) (l : Label K) : Prop :=
  ∀ tids, l = .start tids → caller ∉ tids ∧ -1 ∉ tids

/-! ### What a worker's step does to its thread -/

/-- The fiber that `t_fiber` should point to, on a thread scheduled by `sched`. -/
def PC.target (sched : Ref) : PC K → Ref
  | .on _ f .setExec | .on _ f .switchIn | .on _ f (.inside _) | .on _ f (.yielding _ _)
  | .on _ f (.switchOut _) => .fiber f
  | _ => sched

/-- The fiber in whose context the thread is. -/
def PC.context (sched : Ref) : PC K → Ref
  | .on _ f (.inside _) | .on _ f (.yielding _ _) | .on _ f (.switchOut _) => .fiber f
  | _ => sched

/-- Outside the window in `swapIn` the fiber named is the one executed. -/
theorem PC.target_eq {pc : PC K} (h : pc.settled = true) (sched : Ref) :
    pc.target sched = pc.context sched := by
  cases pc with
  | on b f ph => cases ph <;> first | rfl | cases h
  | _ => rfl

/-- A step from here touches the pointers of the thread. -/
def PC.switches : PC K → Bool
  | .prelude | .on _ _ .assertNotExec | .on _ _ .switchIn | .on _ _ (.switchOut _) => true
  | _ => false

theorem PC.switches_of_swapsOut {pc : PC K} (h : pc.swapsOut = true) : pc.switches = true := by
  cases pc with
  | on b f ph => cases ph <;> first | rfl | cases h
  | _ => cases h

/-- The thread is in the same context with the same `t_fiber`. -/
def PC.Same (pc pc' : PC K) : Prop :=
  pc' ≠ .prelude ∧ ∀ sched, pc'.target sched = pc.target sched ∧
    pc'.context sched = pc.context sched

/-- Where a step of a worker leads from a place in `run`, as far as its thread sees. -/
inductive PCStep : PC K → PC K → Prop where
  | prelude : PCStep .prelude .scan
  | setThis {b f} : PCStep (.on b f .assertNotExec) (.on b f .setExec)
  | enter {b f p} : PCStep (.on b f .switchIn) (.on b f (.inside p))
  | swapOut {b f p} : PCStep (.on b f (.switchOut p)) (.on b f .returned)
  | stay {pc pc' : PC K} : pc.switches = false → pc.Same pc' → PCStep pc pc'

/-- A move of the fiber in hand, seen from the thread, -/
theorem FiberMove.pcStep {b : Branch} {f : Nat} {x x' : Fiber K} {ph ph' : Phase K}
    (h : FiberMove b x ph x' ph') : PCStep (.on b f ph) (.on b f ph') := by
  cases h with
  | assertNotExec _ => exact .setThis
  | switchIn => exact .enter
  | save p => exact .swapOut
  | _ => exact .stay rfl ⟨nofun, fun _ => ⟨rfl, rfl⟩⟩

/-- and an action of its code, which stays in the same context. -/
theorem CodeMove.pcStep {b : Branch} {f : Nat} {c c' : Code K} {a : Act K} {x x' : Fiber K}
    {ph : Phase K} (h : CodeMove c' a x x' ph) :
    PCStep (.on b f (.inside (.body c))) (.on b f ph) := by
  cases h <;> exact .stay rfl ⟨nofun, fun _ => ⟨rfl, rfl⟩⟩

/-- The label is a step of worker `w`. -/
def Label.ofWorker (w : Nat) : Label K → Prop
  | .work v | .act v _ => v = w
  | _ => False

/-- A worker's step moves this worker only. -/
theorem Move.pcStep {s s' : State K} {l : Label K} {w : Nat} (hm : Move P s l s')
    (hl : l.ofWorker w) (hfault : s'.fault = none) :
    ∃ y, s'.workers = Function.update s.workers w y ∧ y.tid = (s.workers w).tid ∧
      PCStep (s.workers w).pc y.pc := by
  -- most steps stay in the context of the scheduling fiber
  have stay : ∀ {y : Worker K} {pc : PC K}, s'.workers = Function.update s.workers w y →
      y.tid = (s.workers w).tid → (s.workers w).pc = pc → pc.switches = false →
        pc.Same y.pc →
      ∃ y, s'.workers = Function.update s.workers w y ∧ y.tid = (s.workers w).tid ∧
        PCStep (s.workers w).pc y.pc := by
    intro y pc hworkers htid hpc hswitch hsame
    exact ⟨y, hworkers, htid, hpc ▸ .stay hswitch hsame⟩
  cases hm with
  | fails hf => cases hfault
  | owner hown _ => rcases hown with ⟨_, rfl⟩ | rfl | rfl <;> exact hl.elim
  | extSchedule _ => exact hl.elim
  | extNew => exact hl.elim
  | prelude hpc =>
    obtain rfl := hl
    exact ⟨_, rfl, rfl, hpc ▸ .prelude⟩
  | fiber hpc hx =>
    obtain rfl := hl
    exact ⟨_, rfl, rfl, hpc ▸ hx.pcStep⟩
  | code hpc _ hx _ =>
    obtain rfl := hl
    exact ⟨_, rfl, rfl, hpc ▸ hx.pcStep⟩
  | scanNone hpc _ | scanSome hpc _ | checkNone hpc | checkDone hpc _ | checkFiber hpc _
  | checkCb hpc | prepareOld hpc _ _ | prepareNew hpc _ | idleExit hpc _ _ | idleEnter hpc _ _
  | decrement hpc _ | requeue hpc | leave hpc _ _ | setHold hpc | recycle hpc _
  | codeSchedule hpc _ _ | codeNew hpc _ =>
    obtain rfl := hl
    exact stay rfl rfl hpc rfl ⟨nofun, fun _ => ⟨rfl, rfl⟩⟩

/-! ### What the pointers are -/

/-- The locals of a pool thread. -/
def Locals.pool (w : Nat) (pc : PC K) : Locals :=
  match pc with
  | .prelude => .blank
  | pc =>
    { fiber := some (pc.target (.main (.pool w)))
      threadFiber := some (.main (.pool w))
      schedulerFiber := some (.main (.pool w))
      context := some (pc.context (.main (.pool w))) }

/-- The locals of the caller's thread inside the root fiber, as they should be. -/
def Locals.inRoot (pc : PC K) : Locals :=
  { fiber := some (pc.target .root)
    threadFiber := some (.main .caller)
    schedulerFiber := some .root
    context := some (pc.context .root) }

/-- The same up to `t_fiber`. -/
def Locals.RootAt (pc : PC K) (l : Locals) : Prop :=
  l.threadFiber = some (.main .caller) ∧ l.schedulerFiber = some .root ∧
    l.context = some (pc.context .root)

theorem after_same (l : Locals) (onPool : Bool) (t : Thread) {pc : PC K} (h : pc.switches = false) :
    l.after onPool t pc = l := by
  cases pc with
  | on b f ph => cases ph <;> first | rfl | cases h
  | prelude => cases h
  | _ => rfl

theorem pool_of_ne {pc : PC K} (h : pc ≠ .prelude) (w : Nat) :
    Locals.pool w pc =
      { fiber := some (pc.target (.main (.pool w)))
        threadFiber := some (.main (.pool w))
        schedulerFiber := some (.main (.pool w))
        context := some (pc.context (.main (.pool w))) } := by
  cases pc with
  | prelude => exact absurd rfl h
  | _ => rfl

/-- On a pool thread `swapOut` goes back to the main fiber. -/
theorem pool_after {pc pc' : PC K} (h : PCStep pc pc') (w : Nat) :
    (Locals.pool w pc).after true (.pool w) pc = Locals.pool w pc' := by
  cases h with
  | stay hswitch hsame =>
    have hpc : pc ≠ .prelude := by
      rintro rfl
      cases hswitch
    rw [after_same _ _ _ hswitch, pool_of_ne hpc, pool_of_ne hsame.1]
    obtain ⟨htarget, hcontext⟩ := hsame.2 (.main (.pool w))
    rw [htarget, hcontext]
  | _ => rfl

/-- In the root fiber all goes well but `swapOut`. -/
theorem root_after {pc pc' : PC K} (h : PCStep pc pc') (hout : pc.swapsOut = false) :
    (Locals.inRoot pc).after false .caller pc = Locals.inRoot pc' := by
  cases h with
  | stay hswitch hsame =>
    rw [after_same _ _ _ hswitch]
    unfold Locals.inRoot
    obtain ⟨htarget, hcontext⟩ := hsame.2 .root
    rw [htarget, hcontext]
  | swapOut => cases hout
  | _ => rfl

theorem rootAt_after {pc pc' : PC K} {l : Locals} (h : PCStep pc pc') (hl : l.RootAt pc) :
    (l.after false .caller pc).RootAt pc' := by
  obtain ⟨hthread, hsched, hcontext⟩ := hl
  cases h with
  | stay hswitch hsame =>
    rw [after_same _ _ _ hswitch]
    exact ⟨hthread, hsched, hcontext.trans (congrArg some (hsame.2 .root).2.symm)⟩
  | prelude => exact ⟨hthread, hsched, hcontext⟩
  | setThis => exact ⟨hthread, hsched, hcontext⟩
  | enter => exact ⟨hthread, hsched, rfl⟩
  | swapOut => exact ⟨hthread, hsched, hsched⟩

/-! ### Invariants -/

/-- The pointers in every state, whatever has been switched out. -/
structure Tracked (useCaller : Bool) (caller : Int) (s : State K) (h : Threads) : Prop where
  rootThread : s.rootThread = if useCaller then caller else -1
  rootFiber : useCaller = false → s.rootFiber = none
  new : ∀ w, s.nworkers ≤ w → (s.workers w).pc = .exited ∧ h.home w = .pool w
  blank : ∀ w, s.nworkers ≤ w ∨ h.home w = .caller → h.locals (.pool w) = .blank
  home : ∀ w, h.home w = .pool w ∨ h.home w = .caller ∧ (s.workers w).tid = s.rootThread ∧
    (s.ctl = .inRoot w ∨ (s.workers w).pc = .exited)
  inRoot : ∀ w, s.ctl = .inRoot w →
    useCaller = true ∧ h.home w = .caller ∧ (h.locals .caller).RootAt (s.workers w).pc
  outside : (∀ w, s.ctl ≠ .inRoot w) → h.locals .caller = if useCaller then .useCaller else .blank
  pool : ∀ w, w < s.nworkers → h.home w = .pool w →
    (s.workers w).tid ≠ s.rootThread ∧ h.locals (.pool w) = .pool w (s.workers w).pc

/-- `t_fiber` on the caller's thread. -/
def RootRight (s : State K) (h : Threads) : Prop :=
  ∀ w, s.ctl = .inRoot w → h.locals .caller = .inRoot (s.workers w).pc

section steps
variable {useCaller : Bool} {caller : Int} {s s' : State K} {h : Threads}

/-- Nothing changes that a thread sees. -/
theorem Tracked.frame (ht : Tracked useCaller caller s h) (hworkers : s'.workers = s.workers)
    (hn : s'.nworkers = s.nworkers) (hthread : s'.rootThread = s.rootThread)
    (hroot : s.rootFiber = none → s'.rootFiber = none)
    (hctl : s'.ctl = s.ctl ∨ (∀ w, s.ctl ≠ .inRoot w) ∧ ∀ w, s'.ctl ≠ .inRoot w) :
    Tracked useCaller caller s' h where
  rootThread := hthread.trans ht.rootThread
  rootFiber hfalse := hroot (ht.rootFiber hfalse)
  new w hw := by
    rw [hn] at hw
    rw [hworkers]
    exact ht.new w hw
  blank w hw := by
    rw [hn] at hw
    exact ht.blank w hw
  home w := by
    rw [hworkers, hthread]
    rcases ht.home w with hpool | ⟨hcaller, htid, hrun⟩
    · exact .inl hpool
    · refine .inr ⟨hcaller, htid, ?_⟩
      rcases hrun with hrun | hexit
      · rcases hctl with hsame | ⟨hout, -⟩
        · exact .inl (hsame.trans hrun)
        · exact absurd hrun (hout w)
      · exact .inr hexit
  inRoot w hw := by
    rw [hworkers]
    rcases hctl with hsame | ⟨-, hout⟩
    · exact ht.inRoot w (hsame ▸ hw)
    · exact absurd hw (hout w)
  outside hout := by
    rcases hctl with hsame | ⟨hout', -⟩
    · exact ht.outside fun w => hsame ▸ hout w
    · exact ht.outside hout'
  pool w hw hpool := by
    rw [hn] at hw
    rw [hworkers, hthread]
    exact ht.pool w hw hpool

/-- Steps that leave the workers where they are. -/
theorem RootRight.frame (hr : RootRight s h) (hworkers : s'.workers = s.workers)
    (hctl : s'.ctl = s.ctl ∨ (∀ w, s.ctl ≠ .inRoot w) ∧ ∀ w, s'.ctl ≠ .inRoot w) :
    RootRight s' h := by
  intro w hw
  rw [hworkers]
  rcases hctl with hsame | ⟨-, hout⟩
  · exact hr w (hsame ▸ hw)
  · exact absurd hw (hout w)

/-- One worker takes a step on its thread. -/
theorem Tracked.worker (ht : Tracked useCaller caller s h) {w : Nat} {y : Worker K}
    (hw : (s.workers w).pc ≠ .exited) (hworkers : s'.workers = Function.update s.workers w y)
    (htid : y.tid = (s.workers w).tid) (hpc : PCStep (s.workers w).pc y.pc) (hsame : OwnerSame s s')
    (hthread : s'.rootThread = s.rootThread) : Tracked useCaller caller s' (h.after s w) := by
  have hlt : w < s.nworkers := by
    by_contra hge
    exact hw (ht.new w (Nat.le_of_not_lt hge)).1
  have hother : ∀ v, v ≠ w → s'.workers v = s.workers v := by
    intro v hv
    rw [hworkers, Function.update_of_ne hv]
  have hself : s'.workers w = y := by rw [hworkers, Function.update_self]
  have hlocals : ∀ t, t ≠ h.home w → (h.after s w).locals t = h.locals t :=
    fun t hne => h.set_ne _ hne
  have hhome : (h.after s w).home = h.home := rfl
  -- the thread that the step is on
  have hown : (h.after s w).locals (h.home w)
      = (h.of w).after ((s.workers w).tid ≠ s.rootThread) (h.home w) (s.workers w).pc :=
    h.set_self _ _
  -- the root fiber's worker takes steps only while `stop` is in the root fiber
  have hcaller : h.home w = .caller → s.ctl = .inRoot w := by
    intro hcaller
    rcases ht.home w with hpool | ⟨-, -, hrun | hexit⟩
    · rw [hcaller] at hpool
      cases hpool
    · exact hrun
    · exact absurd hexit hw
  refine ⟨hthread.trans ht.rootThread, ?_, ?_, ?_, ?_, ?_, ?_, ?_⟩
  · intro hfalse
    rw [hsame.rootFiber]
    exact ht.rootFiber hfalse
  · intro v hv
    rw [hsame.nworkers] at hv
    rw [hother v (by omega)]
    exact ht.new v hv
  · intro v hv
    rw [hsame.nworkers, hhome] at hv
    have hne : .pool v ≠ h.home w := by
      intro heq
      rcases ht.home w with hpool | ⟨hc, -, -⟩
      · rw [hpool] at heq
        cases heq
        rcases hv with hv | hv
        · omega
        · rw [hpool] at hv
          cases hv
      · rw [hc] at heq
        cases heq
    rw [hlocals _ hne]
    exact ht.blank v hv
  · intro v
    rw [hhome, hthread, hsame.ctl]
    by_cases hv : v = w
    · subst hv
      rw [hself, htid]
      rcases ht.home v with hpool | ⟨hc, hid, -⟩
      · exact .inl hpool
      · exact .inr ⟨hc, hid, .inl (hcaller hc)⟩
    · rw [hother v hv]
      exact ht.home v
  · intro v hv
    rw [hsame.ctl] at hv
    obtain ⟨huse, hvhome, hroot⟩ := ht.inRoot v hv
    refine ⟨huse, hvhome, ?_⟩
    by_cases hvw : v = w
    · subst hvw
      rw [hvhome] at hown
      obtain ⟨-, hid, -⟩ := (ht.home v).resolve_left (by rw [hvhome]; nofun)
      rw [hself, hown]
      simp only [hid, ne_eq, not_true_eq_false, decide_false, Threads.of, hvhome]
      exact rootAt_after hpc hroot
    · have hne : .caller ≠ h.home w := by
        intro heq
        have hctl := hcaller heq.symm
        rw [hv] at hctl
        cases hctl
        exact hvw rfl
      rw [hother v hvw, hlocals _ hne]
      exact hroot
  · intro hout
    have hne : .caller ≠ h.home w := fun heq => hout w (hsame.ctl.trans (hcaller heq.symm))
    rw [hlocals _ hne]
    exact ht.outside fun v => hsame.ctl ▸ hout v
  · intro v hv hpool
    rw [hsame.nworkers] at hv
    rw [hhome] at hpool
    obtain ⟨hid, hl⟩ := ht.pool v hv hpool
    rw [hthread]
    by_cases hvw : v = w
    · subst hvw
      rw [hpool] at hown
      rw [hself, htid, hown]
      refine ⟨hid, ?_⟩
      simp only [hid, ne_eq, not_false_eq_true, decide_true, Threads.of, hpool, hl]
      exact pool_after hpc v
    · have hne : .pool v ≠ h.home w := by
        intro heq
        rcases ht.home w with hw' | ⟨hc, -, -⟩
        · rw [hw'] at heq
          cases heq
          exact hvw rfl
        · rw [hc] at heq
          cases heq
      rw [hother v hvw, hlocals _ hne]
      exact ⟨hid, hl⟩

theorem RootRight.worker (ht : Tracked useCaller caller s h) (hr : RootRight s h) {w : Nat}
    {y : Worker K} (hw : (s.workers w).pc ≠ .exited)
    (hworkers : s'.workers = Function.update s.workers w y)
    (hpc : PCStep (s.workers w).pc y.pc) (hsame : OwnerSame s s')
    (hout : ¬ (s.ctl = .inRoot w ∧ (s.workers w).pc.swapsOut = true)) :
    RootRight s' (h.after s w) := by
  intro v hv
  rw [hsame.ctl] at hv
  obtain ⟨-, hvhome, -⟩ := ht.inRoot v hv
  by_cases hvw : v = w
  · subst hvw
    obtain ⟨-, hid, -⟩ := (ht.home v).resolve_left (by rw [hvhome]; nofun)
    have hnot : (s.workers v).pc.swapsOut = false := by simpa [hv] using hout
    have hown : (h.after s v).locals .caller
        = (h.locals .caller).after false .caller (s.workers v).pc := by
      simp [Threads.after, Threads.set, Threads.of, hvhome, hid]
    rw [hworkers, Function.update_self, hown, hr v hv]
    exact root_after hpc hnot
  · have hne : .caller ≠ h.home w := by
      intro heq
      rcases ht.home w with hpool | ⟨-, -, hrun | hexit⟩
      · rw [hpool] at heq
        cases heq
      · rw [hv] at hrun
        cases hrun
        exact hvw rfl
      · exact hw hexit
    rw [hworkers, Function.update_of_ne hvw]
    exact (h.set_ne _ hne).trans (hr v hv)

/-- New threads have no fiber yet. -/
theorem Tracked.start (ht : Tracked useCaller caller s h) {tids : List Int}
    (hids : OwnIds caller (.start tids : Label K)) (hstep : startStep s tids = some s')
    (hfault : s'.fault = none) : Tracked useCaller caller s' h := by
  obtain ⟨hcaller, hnone⟩ := hids tids rfl
  cases (startStep_move hstep).2.2 with
  | running _ => exact ht
  | fails _ _ => cases hfault
  | starts _ _ =>
    have hroot : s.rootThread ∉ tids := by
      rw [ht.rootThread]
      split <;> assumption
    -- the worker on the caller's thread is an old one
    have hold : ∀ w, h.home w = .caller → (s.started tids).workers w = s.workers w := by
      intro w hc
      apply State.started_old
      by_contra hnew
      have hpool := (ht.new w (by omega)).2
      rw [hc] at hpool
      cases hpool
    refine ⟨ht.rootThread, ht.rootFiber, fun w hw => ?_, fun w hw => ?_, fun w => ?_,
      fun w hw => ?_, ht.outside, fun w hw hpool => ?_⟩
    · have hw : s.nworkers + tids.length ≤ w := hw
      rw [State.started_old (.inr hw)]
      exact ht.new w (by omega)
    · apply ht.blank w
      rcases hw with hw | hw
      · exact .inl (Nat.le_trans (Nat.le_add_right _ _) hw)
      · exact .inr hw
    · rcases ht.home w with hpool | ⟨hc, hid, hrun⟩
      · exact .inl hpool
      · rw [hold w hc]
        exact .inr ⟨hc, hid, hrun⟩
    · obtain ⟨huse, hc, hl⟩ := ht.inRoot w hw
      rw [hold w hc]
      exact ⟨huse, hc, hl⟩
    · by_cases hle : s.nworkers ≤ w
      · obtain ⟨t, hmem, hnew⟩ := State.started_new hle hw
        rw [hnew]
        refine ⟨?_, ht.blank w (.inl hle)⟩
        intro heq
        exact hroot (heq ▸ hmem)
      · rw [State.started_old (.inl (by omega))]
        exact ht.pool w (Nat.lt_of_not_le hle) hpool

/-- `m_rootFiber->call()`. -/
theorem Tracked.call (ht : Tracked useCaller caller s h) (hctl : s.ctl = .callRoot)
    (hroot : s.rootFiber = some .init) :
    Tracked useCaller caller
      { s.setWorker s.nworkers (.fresh s.rootThread) with
        rootFiber := some .exec, nworkers := s.nworkers + 1, ctl := .inRoot s.nworkers }
      { h.set .caller ((h.locals .caller).call .root) with
        home := Function.update h.home s.nworkers .caller } := by
  have huse : useCaller = true := by
    cases useCaller with
    | true => rfl
    | false =>
      rw [ht.rootFiber rfl] at hroot
      cases hroot
  have hlocals : h.locals .caller = .useCaller := by
    rw [ht.outside (by rw [hctl]; nofun), huse]
    rfl
  have hhome : ∀ w, w ≠ s.nworkers → Function.update h.home s.nworkers .caller w = h.home w :=
    fun w hw => Function.update_of_ne hw _ _
  have hworker : ∀ w, w ≠ s.nworkers →
      (s.setWorker s.nworkers (.fresh s.rootThread)).workers w = s.workers w :=
    fun w hw => s.setWorker_ne _ _ _ hw
  refine ⟨ht.rootThread, fun hfalse => absurd (huse.symm.trans hfalse) nofun, ?_, ?_,
    ?_, ?_, ?_, ?_⟩
  · intro w hw
    have hne : w ≠ s.nworkers := by
      have hw : s.nworkers + 1 ≤ w := hw
      omega
    obtain ⟨hexit, hpool⟩ := ht.new w (by have hw : s.nworkers + 1 ≤ w := hw; omega)
    exact ⟨(congrArg Worker.pc (hworker w hne)).trans hexit, (hhome w hne).trans hpool⟩
  · intro w hw
    refine (h.set_caller ((h.locals .caller).call .root) w).trans (ht.blank w ?_)
    rcases hw with hw | hw
    · exact .inl (Nat.le_of_succ_le hw)
    · by_cases hne : w = s.nworkers
      · exact .inl (Nat.le_of_eq hne.symm)
      · exact .inr ((hhome w hne).symm.trans hw)
  · intro w
    by_cases hne : w = s.nworkers
    · subst hne
      refine .inr ⟨Function.update_self _ _ _, ?_, .inl rfl⟩
      exact congrArg Worker.tid (s.setWorker_self _ _)
    · rcases ht.home w with hpool | ⟨hc, hid, hrun | hexit⟩
      · exact .inl ((hhome w hne).trans hpool)
      · rw [hctl] at hrun
        cases hrun
      · refine .inr ⟨(hhome w hne).trans hc, ?_, .inr ?_⟩
        · exact (congrArg Worker.tid (hworker w hne)).trans hid
        · exact (congrArg Worker.pc (hworker w hne)).trans hexit
  · intro w hw
    cases hw
    refine ⟨huse, Function.update_self _ _ _, ?_⟩
    show ((h.set .caller ((h.locals .caller).call .root)).locals .caller).RootAt
      ((s.setWorker s.nworkers (.fresh s.rootThread)).workers s.nworkers).pc
    rw [h.set_self, hlocals, s.setWorker_self]
    exact ⟨rfl, rfl, rfl⟩
  · intro hout
    exact absurd rfl (hout s.nworkers)
  · intro w hw hpool
    by_cases hne : w = s.nworkers
    · subst hne
      have hc : Function.update h.home s.nworkers .caller s.nworkers = .pool s.nworkers := hpool
      rw [Function.update_self] at hc
      cases hc
    · have hw : w < s.nworkers + 1 := hw
      obtain ⟨hid, hl⟩ := ht.pool w (by omega) ((hhome w hne).symm.trans hpool)
      refine ⟨?_, (h.set_caller ((h.locals .caller).call .root) w).trans (hl.trans ?_)⟩
      · exact fun heq => hid ((congrArg Worker.tid (hworker w hne)).symm.trans heq)
      · exact congrArg (fun x => Locals.pool w (Worker.pc x)) (hworker w hne).symm

/-- The end of `CallerMainFunc`. -/
theorem Tracked.back (ht : Tracked useCaller caller s h) {w : Nat} (hctl : s.ctl = .inRoot w)
    (hexit : (s.workers w).pc = .exited) :
    Tracked useCaller caller { s with rootFiber := some .term, ctl := .swapThreads }
      (h.set .caller (h.locals .caller).back) := by
  obtain ⟨huse, hc, hthread, hsched, -⟩ := ht.inRoot w hctl
  have hlocals :
      ∀ v, (h.set .caller (h.locals .caller).back).locals (.pool v) = h.locals (.pool v) :=
    fun v => h.set_caller _ v
  refine ⟨ht.rootThread, fun hfalse => absurd (huse.symm.trans hfalse) nofun, ht.new,
    ?_, ?_, nofun, ?_, ?_⟩
  · intro v hv
    rw [hlocals]
    exact ht.blank v hv
  · intro v
    rcases ht.home v with hpool | ⟨hcv, hid, hrun | hexit'⟩
    · exact .inl hpool
    · rw [hctl] at hrun
      cases hrun
      exact .inr ⟨hcv, hid, .inr hexit⟩
    · exact .inr ⟨hcv, hid, .inr hexit'⟩
  · intro _
    rw [h.set_self, huse, if_pos rfl]
    unfold Locals.back
    rw [hthread, hsched]
    rfl
  · intro v hv hpool
    rw [hlocals]
    exact ht.pool v hv hpool

/-- Code that acts does not touch the pointers. -/
theorem after_act {w : Nat} (hswitch : (s.workers w).pc.switches = false) : h.after s w = h := by
  unfold Threads.after
  rw [after_same _ _ _ hswitch]
  simp [Threads.set, Threads.of]

theorem actStep_switches {w : Nat} {a : Act K} (hstep : actStep P s w a = some s') :
    (s.workers w).pc.switches = false := by
  unfold actStep at hstep
  split at hstep
  · next hpc => rw [hpc]; rfl
  · cases hstep

theorem Move.rootThread {l : Label K} (hm : Move P s l s') (hl : l.notOwner = true) :
    s'.rootThread = s.rootThread := by
  cases hm with
  | owner hown _ => rcases hown with ⟨_, rfl⟩ | rfl | rfl <;> cases hl
  | _ => rfl

/-- A step of a worker, with what `track` does to the pointers. -/
theorem track_worker {l : Label K} {w : Nat} (hl : l.ofWorker w) (hfault : s.fault = none)
    (hstep : step P s l = some s') :
    track h s l = h.after s w ∧ (s.workers w).pc ≠ .exited := by
  have hexit : (s.workers w).pc ≠ .exited := by
    apply step_not_exited hstep
    cases l with
    | work v => exact .inl (congrArg Label.work hl)
    | act v a => exact .inr ⟨a, congrArg (Label.act · a) hl⟩
    | _ => exact hl.elim
  refine ⟨?_, hexit⟩
  cases l with
  | work v =>
    obtain rfl : v = w := hl
    rfl
  | act v a =>
    obtain rfl : v = w := hl
    unfold step at hstep
    rw [hfault] at hstep
    exact (after_act (actStep_switches hstep)).symm
  | _ => exact hl.elim

/-- The steps of `stop` outside the root fiber. -/
theorem track_quiet (hcall : s.ctl ≠ .callRoot) (hin : ∀ w, s.ctl ≠ .inRoot w) :
    track h s .ctl = h := by
  simp only [track]
  split
  · exact absurd (by assumption) hcall
  · exact absurd (by assumption) (hin _)
  · rfl

/-- The owner's steps. -/
theorem Tracked.ctl (ht : Tracked useCaller caller s h) (hstep : ctlStep s = some s')
    (hfault : s'.fault = none) :
    Tracked useCaller caller s' (track h s .ctl) ∧
      (RootRight s h → RootRight s' (track h s .ctl)) := by
  have quiet : ∀ {c : Ctl} {flag : Bool} {threads : List Nat}, s.ctl ≠ .callRoot →
      (∀ w, s.ctl ≠ .inRoot w) → (∀ w, c ≠ .inRoot w) →
      Tracked useCaller caller { s with ctl := c, stoppingFlag := flag, threads := threads }
          (track h s .ctl) ∧
        (RootRight s h → RootRight { s with ctl := c, stoppingFlag := flag, threads := threads }
          (track h s .ctl)) := by
    intro c flag threads hcall hin hc
    rw [track_quiet hcall hin]
    exact ⟨ht.frame rfl rfl rfl (fun hnone => hnone) (.inr ⟨hin, hc⟩),
      fun hr => hr.frame rfl (.inr ⟨hin, hc⟩)⟩
  cases ctlStep_move hstep with
  | callExec _ _ => cases hfault
  | neverReach _ _ _ => cases hfault
  | call hcall hroot =>
    have hnew := ht.call hcall hroot
    simp only [track, hcall, hroot]
    refine ⟨hnew, fun _ => ?_⟩
    intro w hw
    cases hw
    show (h.set .caller ((h.locals .caller).call .root)).locals .caller
      = Locals.inRoot ((s.setWorker s.nworkers (.fresh s.rootThread)).workers s.nworkers).pc
    obtain ⟨huse, -⟩ := hnew.inRoot s.nworkers rfl
    rw [h.set_self, s.setWorker_self, ht.outside (by rw [hcall]; nofun), huse]
    rfl
  | returned w hin hexit =>
    have hexited : (s.workers w).pc.hasExited = true := by rw [hexit]; rfl
    simp only [track, hin, hexited, if_true]
    exact ⟨ht.back hin hexit, fun _ => nofun⟩
  | single hctl _ | notSingle hctl _ | singleSet hctl | stopping hctl _ | notStopping hctl _
  | setStopping hctl | toCall hctl _ _ | noCall hctl _ | swapThreads hctl | joined hctl
  | join _ _ hctl _ =>
    exact quiet (by rw [hctl]; nofun) (by rw [hctl]; nofun) nofun

theorem Tracked.step {l : Label K} (ht : Tracked useCaller caller s h) (hids : OwnIds caller l)
    (hstep : step P s l = some s') (hfault : s'.fault = none) :
    Tracked useCaller caller s' (track h s l) ∧
      (RootRight s h → ¬ ReturnsToRoot s l → RootRight s' (track h s l)) := by
  obtain ⟨hnone, hm⟩ := step_move hstep
  have worker : ∀ w, l.ofWorker w → l.notOwner = true →
      (¬ ReturnsToRoot s l → ¬ (s.ctl = .inRoot w ∧ (s.workers w).pc.swapsOut = true)) →
      Tracked useCaller caller s' (track h s l) ∧
        (RootRight s h → ¬ ReturnsToRoot s l → RootRight s' (track h s l)) := by
    intro w hl hl' hout
    obtain ⟨y, hworkers, htid, hpc⟩ := hm.pcStep hl hfault
    obtain ⟨htrack, hexit⟩ := track_worker (h := h) hl hnone hstep
    rw [htrack]
    exact ⟨ht.worker hexit hworkers htid hpc (hm.ownerSame hl') (hm.rootThread hl'),
      fun hr hnot => hr.worker ht hexit hworkers hpc (hm.ownerSame hl') (hout hnot)⟩
  cases step_by hstep with
  | other hl' hown =>
    cases l with
    | work w => exact worker w rfl rfl fun hnot => hnot
    | act w a =>
      refine worker w rfl rfl fun _ hout => ?_
      have hswitch := PC.switches_of_swapsOut hout.2
      unfold Scheduler.step at hstep
      rw [hnone] at hstep
      rw [actStep_switches hstep] at hswitch
      cases hswitch
    | ext a =>
      have hkeep : s'.workers = s.workers := by
        cases hm with
        | fails hf => cases hfault
        | owner hown _ => rcases hown with ⟨_, hown⟩ | hown | hown <;> cases hown
        | _ => rfl
      exact ⟨ht.frame hkeep hown.nworkers (hm.rootThread rfl)
        (fun hroot => hown.rootFiber.trans hroot)
        (.inl hown.ctl), fun hr _ => hr.frame hkeep (.inl hown.ctl)⟩
    | _ => cases hl'
  | @start tids hstart =>
    refine ⟨ht.start hids hstart hfault, fun hr _ => ?_⟩
    -- nobody is in the root fiber
    obtain ⟨huser, -, hmove⟩ := startStep_move hstart
    have hctl : s'.ctl = s.ctl := by cases hmove <;> rfl
    intro w hw
    rw [hctl, huser] at hw
    cases hw
  | stop hstop =>
    obtain ⟨huser, rfl⟩ := stopStep_eq hstop
    have hin : ∀ w, s.ctl ≠ .inRoot w := by
      rw [huser]
      nofun
    exact ⟨ht.frame rfl rfl rfl (fun hroot => hroot) (.inr ⟨hin, nofun⟩),
      fun hr _ => hr.frame rfl (.inr ⟨hin, nofun⟩)⟩
  | ctl hctl =>
    obtain ⟨hnew, hright⟩ := ht.ctl hctl hfault
    exact ⟨hnew, fun hr _ => hright hr⟩

end steps

/-! ### Whole runs -/

section runs
variable {threads : Nat} {useCaller : Bool} {caller : Int}

theorem Tracked.initial (threads : Nat) (useCaller : Bool) (caller : Int) :
    Tracked useCaller caller (.initial threads useCaller caller : State K)
      (.initial useCaller) := by
  refine ⟨rfl, ?_, fun w _ => ⟨rfl, rfl⟩, fun w _ => rfl, fun w => .inl rfl, nofun,
    fun _ => ?_, ?_⟩
  · rintro rfl
    rfl
  · cases useCaller <;> rfl
  · intro w hw
    exact absurd hw (Nat.not_lt_zero w)

/-- After a run: the pointers, and `t_fiber` on the caller's thread if no step of the
    run has gone back to the root fiber. -/
theorem exec_tracked (ls : List (Label K)) (hids : ∀ l ∈ ls, OwnIds caller l)
    {p : State K × Threads}
    (hrun : (tracked P threads useCaller caller).exec (tracked P threads useCaller caller).init ls
      = some p) (hfault : p.1.fault = none) :
    Tracked useCaller caller p.1 p.2 ∧
      (((tracked P threads useCaller caller).Steps ls fun p l => ¬ ReturnsToRoot p.1 l) →
        RootRight p.1 p.2) := by
  induction ls using List.reverseRecOn generalizing p with
  | nil =>
    cases hrun
    exact ⟨.initial threads useCaller caller, fun _ => nofun⟩
  | append_singleton ls l ih =>
    rw [System.exec_snoc, Option.bind_eq_some_iff] at hrun
    obtain ⟨q, hq, hstep⟩ := hrun
    obtain ⟨hstep, htrack⟩ := System.withHistory_step.mp hstep
    obtain ⟨ht, hroot⟩ :=
      ih (fun l hl => hids l (List.mem_append_left _ hl)) hq (step_move hstep).1
    obtain ⟨hnew, hright⟩ := ht.step (hids l (by simp)) hstep hfault
    rw [htrack]
    refine ⟨hnew, fun hsteps => ?_⟩
    obtain ⟨hpre, hlast⟩ := System.steps_snoc.mp hsteps
    exact hright (hroot hpre) (hlast q hq)

theorem Tracked.currentRight {s : State K} {h : Threads} (ht : Tracked useCaller caller s h)
    (hr : RootRight s h) : CurrentRight (s, h) := by
  intro _ t hsettled
  cases t with
  | caller =>
    by_cases hin : ∃ w, s.ctl = .inRoot w
    · obtain ⟨w, hin⟩ := hin
      obtain ⟨-, hhome, -⟩ := ht.inRoot w hin
      show (h.locals .caller).fiber = (h.locals .caller).context
      rw [hr w hin]
      exact congrArg some (PC.target_eq (hsettled w hhome) .root)
    · show (h.locals .caller).fiber = (h.locals .caller).context
      rw [ht.outside fun w hw => hin ⟨w, hw⟩]
      cases useCaller <;> rfl
  | pool w =>
    show (h.locals (.pool w)).fiber = (h.locals (.pool w)).context
    by_cases hw : w < s.nworkers ∧ h.home w = .pool w
    · rw [(ht.pool w hw.1 hw.2).2]
      by_cases hpc : (s.workers w).pc = .prelude
      · rw [hpc]
        rfl
      · rw [pool_of_ne hpc]
        exact congrArg some (PC.target_eq (hsettled w hw.2) _)
    · have hblank : s.nworkers ≤ w ∨ h.home w = .caller := by
        rcases ht.home w with hpool | ⟨hcaller, -⟩
        · by_contra hnot
          exact hw ⟨by omega, hpool⟩
        · exact .inr hcaller
      rw [ht.blank w hblank]
      rfl

theorem fault_of_returnsToRoot {s s' : State K} {l : Label K} (hstep : step P s l = some s')
    (hret : ReturnsToRoot s l) : s'.fault = none := by
  have hnone := (step_move hstep).1
  cases l with
  | work w =>
    obtain ⟨-, hout⟩ := hret
    cases hpc : (s.workers w).pc with
    | on b f ph =>
      rw [hpc] at hout
      cases ph with
      | switchOut p =>
        simp only [step, hnone, workStep, hpc, phaseStep] at hstep
        cases hstep
        exact hnone
      | _ => cases hout
    | _ =>
      rw [hpc] at hout
      cases hout
  | _ => exact hret.elim

/-- A `swapOut` to the root fiber leaves `t_fiber` at the main fiber. -/
theorem not_currentRight {s s' : State K} {h : Threads} {l : Label K}
    (ht : Tracked useCaller caller s h) (hids : OwnIds caller l) (hstep : step P s l = some s')
    (hret : ReturnsToRoot s l) : ¬ CurrentRight (s', track h s l) := by
  intro hright
  have hfault := fault_of_returnsToRoot hstep hret
  have ht' := (ht.step hids hstep hfault).1
  cases l with
  | work w =>
    obtain ⟨hctl, hout⟩ := hret
    obtain ⟨hnone, hm⟩ := step_move hstep
    obtain ⟨-, hhome, hthread, hsched, -⟩ := ht.inRoot w hctl
    obtain ⟨y, hworkers, -, hpc⟩ := hm.pcStep (w := w) rfl hfault
    have hctl' : s'.ctl = .inRoot w := (hm.ownerSame rfl).ctl.trans hctl
    -- the worker is back in the root fiber
    have hback :
        y.pc.settled = true ∧ (h.after s w).locals .caller = (h.locals .caller).swapOut := by
      have hafter : (h.after s w).locals .caller = (h.locals .caller).after
          ((s.workers w).tid ≠ s.rootThread) .caller (s.workers w).pc := by
        simp [Threads.after, Threads.of, hhome]
      rw [hafter]
      generalize (s.workers w).pc = pc at hpc hout ⊢
      generalize y.pc = pc' at hpc ⊢
      cases hpc with
      | swapOut => exact ⟨rfl, rfl⟩
      | stay hswitch _ =>
        rw [PC.switches_of_swapsOut hout] at hswitch
        cases hswitch
      | _ => cases hout
    have hsettled : Settled (s', track h s (.work w)) .caller := by
      intro v hv
      rcases ht'.home v with hpool | ⟨-, -, hrun | hexit⟩
      · exact absurd (hv.symm.trans hpool) nofun
      · rw [hctl'] at hrun
        cases hrun
        show (s'.workers w).pc.settled = true
        rw [hworkers, Function.update_self]
        exact hback.1
      · show (s'.workers v).pc.settled = true
        rw [hexit]
        rfl
    have heq : ((h.after s w).locals .caller).fiber = ((h.after s w).locals .caller).context :=
      hright hfault .caller hsettled
    rw [hback.2] at heq
    have heq : (h.locals .caller).threadFiber = (h.locals .caller).schedulerFiber := heq
    rw [hthread, hsched] at heq
    cases heq
  | _ => exact hret.elim

/-- `t_fiber` is right in every state of a run, on all threads of the scheduler, if
    and only if no step of the run switches a fiber out to the root fiber. -/
theorem current_iff (ls : List (Label K)) (hids : ∀ l ∈ ls, OwnIds caller l)
    (hrun : ((tracked P threads useCaller caller).exec (tracked P threads useCaller caller).init
      ls).isSome) :
    (tracked P threads useCaller caller).Visits ls CurrentRight ↔
      (tracked P threads useCaller caller).Steps ls fun p l => ¬ ReturnsToRoot p.1 l := by
  constructor
  · intro h pre l p hp hpre hret
    -- the run goes on with this step
    obtain ⟨rest, hrest⟩ := hp
    obtain ⟨last, hlast⟩ := Option.isSome_iff_exists.mp hrun
    rw [← hrest, System.exec_append, Option.bind_eq_some_iff] at hlast
    obtain ⟨q, hq, hafter⟩ := hlast
    have hstep := hq
    rw [System.exec_snoc, hpre, Option.bind_some] at hstep
    obtain ⟨hstep, htrack⟩ := System.withHistory_step.mp hstep
    have hids' : ∀ l' ∈ pre, OwnIds caller l' := fun l' hl' =>
      hids l' (hrest ▸ List.mem_append_left _ (List.mem_append_left _ hl'))
    obtain ⟨ht, -⟩ := exec_tracked pre hids' hpre (step_move hstep).1
    have hright := h (pre ++ [l]) q ⟨rest, hrest⟩ hq
    apply not_currentRight ht (hids l (hrest ▸ by simp)) hstep hret
    rw [← htrack]
    exact hright
  · intro h pre p hp hpre hfault
    have hids' : ∀ l ∈ pre, OwnIds caller l := fun l hl => hids l (hp.subset hl)
    obtain ⟨ht, hroot⟩ := exec_tracked pre hids' hpre hfault
    exact ht.currentRight (hroot fun q l u hq => h q l u (hq.trans hp)) hfault

end runs

/-- A scheduler on the caller's thread alone, which runs a fiber to its end in `stop`. -/
def ranInStop : List (Label Script) :=
  [.start [], .ext (.newFiber .ret 0), .ext (.schedule (some (.fiber 0)) (-1)), .stop,
    .ctl, .ctl, .ctl,
    .ctl, .ctl, .ctl, .work 0, .work 0, .work 0, .work 0, .work 0, .work 0, .work 0, .act 0 .ret]

theorem ranInStop_ownIds : ∀ l ∈ ranInStop, OwnIds 7 l := by
  intro l hl tids htids
  subst htids
  have htids : tids = [] := by simpa [ranInStop] using hl
  subst htids
  exact ⟨nofun, nofun⟩

theorem current_iff_ranInStop :
    (tracked scripted 1 true 7).Visits ranInStop CurrentRight ↔
      (tracked scripted 1 true 7).Steps ranInStop fun p l => ¬ ReturnsToRoot p.1 l :=
  current_iff ranInStop ranInStop_ownIds (by decide)

/-- When this fiber has ended, control is in the root fiber and `t_fiber` points to the
    main fiber of the thread. -/
theorem not_current : ¬ ∀ p, (tracked scripted 1 true 7).Reachable p → CurrentRight p := by
  intro h
  have hrun : ((tracked scripted 1 true 7).exec (tracked scripted 1 true 7).init ranInStop).any
      (fun p => p.1.ctl = .inRoot 0 ∧ (p.1.workers 0).pc.swapsOut = true ∧
        (step scripted p.1 (.work 0)).isSome) = true := by
    decide
  obtain ⟨p, hp, hview⟩ := (Option.any_eq_true _ _).mp hrun
  obtain ⟨hctl, hout, hsome⟩ := of_decide_eq_true hview
  obtain ⟨s', hstep⟩ := Option.isSome_iff_exists.mp hsome
  have hreach : (tracked scripted 1 true 7).Reachable (s', track p.2 p.1 (.work 0)) :=
    (System.reachable_exec .init hp).step (.work 0) (System.withHistory_step.mpr ⟨hstep, rfl⟩)
  obtain ⟨ht, -⟩ := exec_tracked ranInStop ranInStop_ownIds hp (step_move hstep).1
  have hids : OwnIds 7 (.work 0 : Label Script) := by
    intro tids htids
    cases htids
  exact not_currentRight ht hids hstep ⟨hctl, hout⟩ (h _ hreach)

end Gwn.Scheduler
