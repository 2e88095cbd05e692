import Gwn.Scheduler.Model

/-! # What one step of the scheduler can do

    Everything later modules need to know about `step` is said here once:

    - projections of the state updates
    - `scanQueue`: where the entry it takes stood, and what it means to take none
    - `FiberMove`: what happens to one fiber in the hands of one worker, seen
      from the fiber alone
    - `Move`: the steps of the whole system by what they change, with `step_move`
    - `OwnerFrame`: `start` and `stop` only touch flags and add workers
    - `StartMove`, `CtlMove`, `StepBy`: what they do, with `step_by` -/

namespace Gwn.Scheduler

variable {K : Type}

/-! ### Projections of the updates -/

namespace State

variable (s : State K) (w w' : Nat) (f g : Nat) (x : Fiber K) (y : Worker K) (pc : PC K)
  (fc : Option (Task K)) (thread : Int)

@[simp] theorem setWorker_heap : (s.setWorker w y).heap = s.heap := rfl
@[simp] theorem setWorker_nfib : (s.setWorker w y).nfib = s.nfib := rfl
@[simp] theorem setWorker_fibers : (s.setWorker w y).fibers = s.fibers := rfl
@[simp] theorem setWorker_active :
    (s.setWorker w y).activeThreadCount = s.activeThreadCount := rfl
@[simp] theorem setWorker_nworkers : (s.setWorker w y).nworkers = s.nworkers := rfl
@[simp] theorem setWorker_self : (s.setWorker w y).workers w = y := by simp [setWorker]
@[simp] theorem setWorker_ne (h : w' ≠ w) : (s.setWorker w y).workers w' = s.workers w' := by
  simp [setWorker, h]

@[simp] theorem setPC_heap : (s.setPC w pc).heap = s.heap := rfl
@[simp] theorem setPC_nfib : (s.setPC w pc).nfib = s.nfib := rfl
@[simp] theorem setPC_fibers : (s.setPC w pc).fibers = s.fibers := rfl
@[simp] theorem setPC_active : (s.setPC w pc).activeThreadCount = s.activeThreadCount := rfl
@[simp] theorem setPC_nworkers : (s.setPC w pc).nworkers = s.nworkers := rfl
@[simp] theorem setPC_self : (s.setPC w pc).workers w = { s.workers w with pc := pc } := by
  simp [setPC]
@[simp] theorem setPC_ne (h : w' ≠ w) : (s.setPC w pc).workers w' = s.workers w' := by
  simp [setPC, h]

@[simp] theorem setFiber_workers : (s.setFiber f x).workers = s.workers := rfl
@[simp] theorem setFiber_nfib : (s.setFiber f x).nfib = s.nfib := rfl
@[simp] theorem setFiber_fibers : (s.setFiber f x).fibers = s.fibers := rfl
@[simp] theorem setFiber_active :
    (s.setFiber f x).activeThreadCount = s.activeThreadCount := rfl
@[simp] theorem setFiber_nworkers : (s.setFiber f x).nworkers = s.nworkers := rfl
@[simp] theorem setFiber_self : (s.setFiber f x).heap f = x := by simp [setFiber]
@[simp] theorem setFiber_ne (h : g ≠ f) : (s.setFiber f x).heap g = s.heap g := by
  simp [setFiber, h]
@[simp] theorem setFiber_heap : s.setFiber f (s.heap f) = s := by simp [setFiber]

@[simp] theorem alloc_workers : (s.alloc x).workers = s.workers := rfl
@[simp] theorem alloc_nfib : (s.alloc x).nfib = s.nfib + 1 := rfl
@[simp] theorem alloc_fibers : (s.alloc x).fibers = s.fibers := rfl
@[simp] theorem alloc_active : (s.alloc x).activeThreadCount = s.activeThreadCount := rfl
@[simp] theorem alloc_nworkers : (s.alloc x).nworkers = s.nworkers := rfl
@[simp] theorem alloc_self : (s.alloc x).heap s.nfib = x := by simp [alloc]
@[simp] theorem alloc_ne (h : g ≠ s.nfib) : (s.alloc x).heap g = s.heap g := by
  simp [alloc, h]

@[simp] theorem schedule_heap : (s.schedule fc thread).heap = s.heap := rfl
@[simp] theorem schedule_nfib : (s.schedule fc thread).nfib = s.nfib := rfl
@[simp] theorem schedule_workers : (s.schedule fc thread).workers = s.workers := rfl
@[simp] theorem schedule_active :
    (s.schedule fc thread).activeThreadCount = s.activeThreadCount := rfl
@[simp] theorem schedule_nworkers : (s.schedule fc thread).nworkers = s.nworkers := rfl
@[simp] theorem schedule_fibers :
    (s.schedule fc thread).fibers = scheduleNoLock s.fibers fc thread := rfl

end State

/-- What stands in the queue after `scheduleNoLock`; an empty entry is not pushed. -/
@[simp] theorem mem_scheduleNoLock {q : List (FiberAndThread K)} {fc : Option (Task K)}
    {thread : Int} {e : FiberAndThread K} :
    e ∈ scheduleNoLock q fc thread ↔
      e ∈ q ∨ ∃ t, fc = some t ∧ e = ⟨t, thread⟩ := by
  cases fc <;> simp [scheduleNoLock]

/-! ### The scan -/

/-- The entry taken is the first one that is not skipped; the rest keeps its order. -/
theorem scanQueue_some {heap : Nat → Fiber K} {tid : Int} {q q' : List (FiberAndThread K)}
    {e : FiberAndThread K} (h : scanQueue heap tid q = some (e, q')) :
    ∃ pre post, q = pre ++ e :: post ∧ q' = pre ++ post ∧ e.skipped heap tid = false ∧
      ∀ x ∈ pre, x.skipped heap tid = true := by
  induction q generalizing q' with
  | nil => simp [scanQueue] at h
  | cons a q ih =>
    unfold scanQueue at h
    split at h
    · next hskip =>
      simp only [Option.map_eq_some_iff, Prod.mk.injEq] at h
      obtain ⟨⟨x, r⟩, hr, rfl, rfl⟩ := h
      obtain ⟨pre, post, rfl, rfl, he, hpre⟩ := ih hr
      exact ⟨a :: pre, post, rfl, rfl, he, by simpa [hskip] using hpre⟩
    · next hskip =>
      simp only [Option.some.injEq, Prod.mk.injEq] at h
      obtain ⟨rfl, rfl⟩ := h
      exact ⟨[], q, rfl, rfl, by simpa using hskip, by simp⟩

/-- Nothing is taken only if every entry is skipped. -/
theorem scanQueue_none {heap : Nat → Fiber K} {tid : Int} {q : List (FiberAndThread K)}
    (h : scanQueue heap tid q = none) : ∀ e ∈ q, e.skipped heap tid = true := by
  induction q with
  | nil => simp
  | cons a q ih =>
    unfold scanQueue at h
    split at h
    · next hskip =>
      simp only [Option.map_eq_none_iff] at h
      simpa [hskip] using ih h
    · cases h

/-- A fiber taken from the queue was not seen in `EXEC`. -/
theorem not_exec_of_not_skipped {heap : Nat → Fiber K} {tid : Int} {e : FiberAndThread K}
    {f : Nat} (h : e.skipped heap tid = false) (hf : e.task = .fiber f) :
    (heap f).state ≠ .exec := by
  unfold FiberAndThread.skipped at h
  split at h
  · cases h
  · rw [hf] at h
    simpa using h

/-! ### One fiber in the hands of one worker -/

/-- The fiber a worker has in hand: taken from the queue, or being worked on. -/
def PC.hand : PC K → Option Nat
  | .check (some (.fiber f)) => some f
  | .on _ f _ => some f
  | _ => none

/-- What an action of the code in a fiber does to that fiber, when it changes
    nothing else: the fiber before and after, and the phase it leads to. The
    code goes on as `c'`. -/
inductive CodeMove (c' : Code K) : Act K → Fiber K → Fiber K → Phase K → Prop where
  | stopping {x v} : CodeMove c' (.stopping v) x x (.inside (.body c'))
  | yieldToReady {x} : x.state = .exec → CodeMove c' .yieldToReady x x (.yielding .ready c')
  | yieldToHold {x} : x.state = .exec → CodeMove c' .yieldToHold x x (.yielding .hold c')
  | ret {x} : CodeMove c' .ret x { x with cb := none, state := .term } (.switchOut .done)
  | throw {x} : CodeMove c' .throw x { x with state := .except } (.switchOut .done)

/-- A move of the worker that leaves it with the same fiber in the same branch:
    the fiber and the phase before, the fiber and the phase after. -/
inductive FiberMove (b : Branch) : Fiber K → Phase K → Fiber K → Phase K → Prop where
  | assertNotExec {x} : x.state ≠ .exec → FiberMove b x .assertNotExec x .setExec
  | setExec {x} : FiberMove b x .setExec { x with state := .exec } .switchIn
  | switchIn {x} : FiberMove b x .switchIn { x with saved := false } (.inside x.ctx)
  | call {x} (c : Code K) : x.cb = some c →
      FiberMove b x (.inside .entry) x (.inside (.body c))
  | callEmpty {x} : x.cb = none →
      FiberMove b x (.inside .entry) { x with state := .except } (.switchOut .done)
  | yield {x} (st : FiberState) (c : Code K) :
      FiberMove b x (.yielding st c) { x with state := st } (.switchOut (.body c))
  | save {x} (p : Point K) :
      FiberMove b x (.switchOut p) { x with ctx := p, saved := true } .returned
  | back {x} : b = .idle → FiberMove b x .returned x .testDone
  | isReady {x} : x.state = .ready → FiberMove b x .testReady x .requeue
  | notReady {x} : x.state ≠ .ready → FiberMove b x .testReady x .testDone
  | notDone {x} : x.state.finished = false → FiberMove b x .testDone x .setHold
  | isDone {x} : b = .cb → x.state.finished = true → FiberMove b x .testDone x .recycle

/-- The assertions of fiber.cc that a worker's step can fail. -/
inductive Fails (s : State K) : Label K → Fault → Prop where
  | swapInExec {w b f} : (s.workers w).pc = .on b f .assertNotExec → (s.heap f).state = .exec →
      Fails s (.work w) (.swapInExec f)
  | yieldNotExec {w b f c a} : (s.workers w).pc = .on b f (.inside (.body c)) →
      a = .yieldToReady ∨ a = .yieldToHold → (s.heap f).state ≠ .exec →
      Fails s (.act w a) (.yieldNotExec f)
  | reset {w f k} : (s.workers w).pc = .prepare k → (s.workers w).cbFiber = some f →
      (s.heap f).state.resettable = false → Fails s (.work w) (.resetState f)
  | recycle {w b f} : (s.workers w).pc = .on b f .recycle →
      (s.heap f).state.resettable = false → Fails s (.work w) (.resetState f)
  | neverReach {w b f} : (s.workers w).pc = .on b f (.inside .done) →
      Fails s (.work w) (.neverReach f)

/-- The assertions that the owner's own steps can fail, in `start` and on the root fiber. -/
def Fault.ofOwner : Fault → Bool
  | .callExec | .rootNeverReach | .startThreads => true
  | _ => false

/-- `start` and `stop` leave fibers, queue and workers alone; they may add workers. -/
structure OwnerFrame (s s' : State K) : Prop where
  heap : s'.heap = s.heap
  nfib : s'.nfib = s.nfib
  fibers : s'.fibers = s.fibers
  active : s'.activeThreadCount = s.activeThreadCount
  grow : s.nworkers ≤ s'.nworkers
  old : ∀ w, w < s.nworkers ∨ s'.nworkers ≤ w → s'.workers w = s.workers w
  fresh : ∀ w, s.nworkers ≤ w → w < s'.nworkers → ∃ tid, s'.workers w = .fresh tid
  fault : ∀ e, s'.fault = some e → s.fault = some e ∨ e.ofOwner = true

/-- A worker is as before, or new. -/
theorem OwnerFrame.worker {s s' : State K} (h : OwnerFrame s s') (w : Nat) :
    s'.workers w = s.workers w ∨ s.nworkers ≤ w ∧ ∃ tid, s'.workers w = .fresh tid := by
  by_cases hw : s.nworkers ≤ w ∧ w < s'.nworkers
  · exact .inr ⟨hw.1, h.fresh w hw.1 hw.2⟩
  · exact .inl (h.old w (by omega))

/-- A new worker has none of the fibers that a worker may have. -/
theorem OwnerFrame.of_worker {s s' : State K} (h : OwnerFrame s s')
    (field : Worker K → Option Nat)
    (hfresh : ∀ tid, field (.fresh tid) = none) {w f : Nat} (hw : field (s'.workers w) = some f) :
    field (s.workers w) = some f := by
  rcases h.worker w with hsame | ⟨-, tid, hnew⟩
  · rw [← hsame, hw]
  · rw [hnew, hfresh] at hw
    cases hw

/-- One step of the whole system, by what it changes. -/
inductive Move (P : Prog K) (s : State K) : Label K → State K → Prop where
  | fails {l e} : Fails s l e → Move P s l { s with fault := some e }
  | owner {l s'} : (∃ tids, l = .start tids) ∨ l = .stop ∨ l = .ctl → OwnerFrame s s' →
      Move P s l s'
  | extSchedule {fc thread} : s.Schedulable fc →
      Move P s (.ext (.schedule fc thread)) (s.schedule fc thread)
  | extNew {k} : Move P s (.ext (.newFiber k s.nfib)) (s.alloc (.new (.user k) false))
  | prelude {w} : (s.workers w).pc = .prelude →
      Move P s (.work w) ((s.alloc (.new P.idle true)).setWorker w
        { s.workers w with pc := .scan, idleFiber := some s.nfib })
  | scanNone {w} : (s.workers w).pc = .scan →
      scanQueue s.heap (s.workers w).tid s.fibers = none →
      Move P s (.work w) (s.setPC w (.check none))
  /-- The entry is erased and the worker counted as active, in one section. -/
  | scanSome {w e q} : (s.workers w).pc = .scan →
      scanQueue s.heap (s.workers w).tid s.fibers = some (e, q) →
      Move P s (.work w)
        ({ s with fibers := q, activeThreadCount := s.activeThreadCount + 1 }.setPC w
          (.check (some e.task)))
  | checkNone {w} : (s.workers w).pc = .check none →
      Move P s (.work w) (s.setPC w .idleTest)
  /-- What was dequeued has ended. The count is not taken back on this way. -/
  | checkDone {w f} : (s.workers w).pc = .check (some (.fiber f)) →
      (s.heap f).state.finished = true → Move P s (.work w) (s.setPC w .idleTest)
  | checkFiber {w f} : (s.workers w).pc = .check (some (.fiber f)) →
      (s.heap f).state.finished = false →
      Move P s (.work w) (s.setPC w (.on .task f .assertNotExec))
  | checkCb {w k} : (s.workers w).pc = .check (some (.cb k)) →
      Move P s (.work w) (s.setPC w (.prepare k))
  /-- The callback gets the `cb_fiber` of the worker, or a new one. -/
  | prepareOld {w k g} : (s.workers w).pc = .prepare k → (s.workers w).cbFiber = some g →
      (s.heap g).state.resettable = true →
      Move P s (.work w)
        ((s.setFiber g ((s.heap g).reset (some (.user k)))).setPC w (.on .cb g .assertNotExec))
  | prepareNew {w k} : (s.workers w).pc = .prepare k → (s.workers w).cbFiber = none →
      Move P s (.work w) ((s.alloc (.new (.user k) false)).setWorker w
        { s.workers w with pc := .on .cb s.nfib .assertNotExec, cbFiber := some s.nfib })
  /-- `run` ends when the idle fiber is in `TERM`; `EXCEPT` is not asked for. -/
  | idleExit {w f} : (s.workers w).pc = .idleTest → (s.workers w).idleFiber = some f →
      (s.heap f).state = .term → Move P s (.work w) (s.setPC w .exited)
  | idleEnter {w f} : (s.workers w).pc = .idleTest → (s.workers w).idleFiber = some f →
      (s.heap f).state ≠ .term →
      Move P s (.work w) (s.setPC w (.on .idle f .assertNotExec))
  /-- A move on the fiber in hand that changes nothing else. -/
  | fiber {w b f ph x ph'} : (s.workers w).pc = .on b f ph →
      FiberMove b (s.heap f) ph x ph' →
      Move P s (.work w) ((s.setFiber f x).setPC w (.on b f ph'))
  | decrement {w b f} : (s.workers w).pc = .on b f .returned → b ≠ .idle →
      Move P s (.work w)
        ({ s with activeThreadCount := s.activeThreadCount - 1 }.setPC w (.on b f .testReady))
  /-- A fiber that has yielded `READY` is scheduled again, for any thread. -/
  | requeue {w b f} : (s.workers w).pc = .on b f .requeue →
      Move P s (.work w) ((s.schedule (some (.fiber f)) (-1)).setWorker w
        { s.workers w with
          pc := .scan, cbFiber := if b = .cb then none else (s.workers w).cbFiber })
  /-- A fiber that has ended is let go of, as it is. -/
  | leave {w b f} : (s.workers w).pc = .on b f .testDone → b ≠ .cb →
      (s.heap f).state.finished = true → Move P s (.work w) (s.setPC w .scan)
  /-- What is neither `READY` nor at its end becomes `HOLD`. -/
  | setHold {w b f} : (s.workers w).pc = .on b f .setHold →
      Move P s (.work w) ((s.setState f .hold).setWorker w
        { s.workers w with
          pc := .scan, cbFiber := if b = .cb then none else (s.workers w).cbFiber })
  /-- `cb_fiber->reset(nullptr)`. -/
  | recycle {w b f} : (s.workers w).pc = .on b f .recycle →
      (s.heap f).state.resettable = true →
      Move P s (.work w) ((s.setFiber f ((s.heap f).reset none)).setPC w .scan)
  /-- An action of the code in the fiber in hand that changes nothing else. -/
  | code {w b f c c' a x ph'} : (s.workers w).pc = .on b f (.inside (.body c)) →
      c.resume P a = some c' → CodeMove c' a (s.heap f) x ph' →
      (∀ v, a = .stopping v → v = s.stopping) →
      Move P s (.act w a) ((s.setFiber f x).setPC w (.on b f ph'))
  | codeSchedule {w b f c c' fc thread} : (s.workers w).pc = .on b f (.inside (.body c)) →
      c.resume P (.schedule fc thread) = some c' → s.Schedulable fc →
      Move P s (.act w (.schedule fc thread))
        ((s.schedule fc thread).setPC w (.on b f (.inside (.body c'))))
  | codeNew {w b f c c' k} : (s.workers w).pc = .on b f (.inside (.body c)) →
      c.resume P (.newFiber k s.nfib) = some c' →
      Move P s (.act w (.newFiber k s.nfib))
        ((s.alloc (.new (.user k) false)).setPC w (.on b f (.inside (.body c'))))

/-! ### Inversion -/

/-- `Move.fiber` when the fiber itself stays as it is. -/
theorem Move.fiber_same {P : Prog K} {s : State K} {w : Nat} {b : Branch} {f : Nat}
    {ph ph' : Phase K} (hpc : (s.workers w).pc = .on b f ph)
    (h : FiberMove b (s.heap f) ph (s.heap f) ph') :
    Move P s (.work w) (s.setPC w (.on b f ph')) := by
  have := Move.fiber (P := P) hpc h
  rwa [s.setFiber_heap] at this

/-- `Move.code` when the fiber itself stays as it is. -/
theorem Move.code_same {P : Prog K} {s : State K} {w : Nat} {b : Branch} {f : Nat}
    {c c' : Code K} {a : Act K} {ph' : Phase K}
    (hpc : (s.workers w).pc = .on b f (.inside (.body c)))
    (hc : c.resume P a = some c') (h : CodeMove c' a (s.heap f) (s.heap f) ph')
    (hv : ∀ v, a = .stopping v → v = s.stopping) :
    Move P s (.act w a) (s.setPC w (.on b f ph')) := by
  have := Move.code (P := P) hpc hc h hv
  rwa [s.setFiber_heap] at this

/-- The phases of a branch of `run`, -/
theorem phaseStep_move {P : Prog K} {s s' : State K} {w : Nat} {b : Branch} {f : Nat}
    {ph : Phase K} (hpc : (s.workers w).pc = .on b f ph) (h : phaseStep s w b f ph = some s') :
    Move P s (.work w) s' := by
  cases ph with
  | assertNotExec =>
    simp only [phaseStep] at h
    split at h <;> cases h
    · next hx => exact .fails (.swapInExec hpc hx)
    · next hx => exact Move.fiber_same hpc (.assertNotExec hx)
  | setExec =>
    cases h
    exact .fiber hpc .setExec
  | switchIn =>
    cases h
    exact .fiber hpc .switchIn
  | inside p =>
    cases p with
    | entry =>
      simp only [phaseStep] at h
      split at h <;> cases h
      · next c hc => exact Move.fiber_same hpc (.call c hc)
      · next hc => exact .fiber hpc (.callEmpty hc)
    | body c => cases h
    | done =>
      cases h
      exact .fails (.neverReach hpc)
  | yielding st c =>
    cases h
    exact .fiber hpc (.yield st c)
  | switchOut p =>
    cases h
    exact .fiber hpc (.save p)
  | returned =>
    cases b <;> simp only [phaseStep] at h <;> cases h
    · exact .decrement hpc (by decide)
    · exact .decrement hpc (by decide)
    · exact Move.fiber_same hpc (.back rfl)
  | testReady =>
    simp only [phaseStep] at h
    split at h <;> cases h
    · next hx => exact Move.fiber_same hpc (.isReady hx)
    · next hx => exact Move.fiber_same hpc (.notReady hx)
  | requeue =>
    cases b <;> simp only [phaseStep] at h <;> cases h <;> exact .requeue hpc
  | testDone =>
    simp only [phaseStep] at h
    split at h
    · next hx =>
      cases b <;> cases h
      · exact .leave hpc (by decide) hx
      · exact Move.fiber_same hpc (.isDone rfl hx)
      · exact .leave hpc (by decide) hx
    · next hx =>
      cases h
      exact Move.fiber_same hpc (.notDone (by simpa using hx))
  | setHold =>
    cases b <;> simp only [phaseStep] at h <;> cases h <;> exact .setHold hpc
  | recycle =>
    simp only [phaseStep] at h
    split at h <;> cases h
    · next hx => exact .recycle hpc hx
    · next hx => exact .fails (.recycle hpc (by simpa using hx))

/-- the loop around them, -/
theorem workStep_move {P : Prog K} {s s' : State K} {w : Nat}
    (h : workStep P s w = some s') : Move P s (.work w) s' := by
  unfold workStep at h
  split at h
  · next hpc => cases h; exact .prelude hpc
  · next hpc =>
    split at h <;> cases h
    · next hq => exact .scanNone hpc hq
    · next e q hq => exact .scanSome hpc hq
  · next f hpc =>
    split at h <;> cases h
    · next hx => exact .checkDone hpc hx
    · next hx => exact .checkFiber hpc (by simpa using hx)
  · next k hpc => cases h; exact .checkCb hpc
  · next hpc => cases h; exact .checkNone hpc
  · next k hpc =>
    split at h
    · next g hg =>
      split at h <;> cases h
      · next hx => exact .prepareOld hpc hg hx
      · next hx => exact .fails (.reset hpc hg (by simpa using hx))
    · next hg => cases h; exact .prepareNew hpc hg
  · next hpc =>
    split at h
    · next f hf =>
      split at h <;> cases h
      · next hx => exact .idleExit hpc hf hx
      · next hx => exact .idleEnter hpc hf hx
    · cases h
  · next b f ph hpc => exact phaseStep_move hpc h
  · cases h

/-- the code in a fiber, -/
theorem actStep_move {P : Prog K} {s s' : State K} {w : Nat} {a : Act K}
    (h : actStep P s w a = some s') : Move P s (.act w a) s' := by
  unfold actStep at h
  split at h
  · next b f c hpc =>
    simp only [codeStep, Option.bind_eq_some_iff] at h
    obtain ⟨c', hc, h⟩ := h
    cases a with
    | schedule fc thread =>
      simp only at h
      split at h <;> cases h
      next hfc => exact .codeSchedule hpc hc hfc
    | newFiber k g =>
      simp only at h
      split at h <;> cases h
      next hg => exact hg ▸ .codeNew hpc (hg ▸ hc)
    | stopping v =>
      simp only at h
      split at h <;> cases h
      next hv => exact Move.code_same hpc hc .stopping (by rintro _ ⟨⟩; exact hv)
    | yieldToReady =>
      simp only at h
      split at h <;> cases h
      · next hx => exact Move.code_same hpc hc (.yieldToReady hx) (by rintro _ ⟨⟩)
      · next hx => exact .fails (.yieldNotExec hpc (.inl rfl) hx)
    | yieldToHold =>
      simp only at h
      split at h <;> cases h
      · next hx => exact Move.code_same hpc hc (.yieldToHold hx) (by rintro _ ⟨⟩)
      · next hx => exact .fails (.yieldNotExec hpc (.inr rfl) hx)
    | ret => cases h; exact .code hpc hc .ret (by rintro _ ⟨⟩)
    | throw => cases h; exact .code hpc hc .throw (by rintro _ ⟨⟩)
  · cases h

/-- and the threads outside. -/
theorem extStep_move {P : Prog K} {s s' : State K} {a : Act K} (h : extStep s a = some s') :
    Move P s (.ext a) s' := by
  cases a with
  | schedule fc thread =>
    simp only [extStep] at h
    split at h <;> cases h
    next hfc => exact .extSchedule hfc
  | newFiber k g =>
    simp only [extStep] at h
    split at h <;> cases h
    next hg => exact hg ▸ .extNew
  | _ => cases h

/-! ### The owner's steps -/

/-- What `start` leaves behind when it goes through. -/
def State.started (s : State K) (tids : List Int) : State K :=
  { s with
    stoppingFlag := false
    workers := fun w =>
      if s.nworkers ≤ w ∧ w < s.nworkers + tids.length then
        .fresh (tids.getD (w - s.nworkers) (-1))
      else s.workers w
    nworkers := s.nworkers + tids.length
    threads := List.range' s.nworkers tids.length }

/-- The workers that were there stay as they are. -/
theorem State.started_old {s : State K} {tids : List Int} {w : Nat}
    (h : w < s.nworkers ∨ s.nworkers + tids.length ≤ w) :
    (s.started tids).workers w = s.workers w := by
  have hout : ¬ (s.nworkers ≤ w ∧ w < s.nworkers + tids.length) := by omega
  exact if_neg hout

/-- The new workers are on the threads that `start` is given. -/
theorem State.started_new {s : State K} {tids : List Int} {w : Nat} (h : s.nworkers ≤ w)
    (h' : w < s.nworkers + tids.length) :
    ∃ t ∈ tids, (s.started tids).workers w = .fresh t := by
  have hlt : w - s.nworkers < tids.length := by omega
  refine ⟨tids[w - s.nworkers], List.getElem_mem hlt, ?_⟩
  rw [show tids[w - s.nworkers] = tids.getD (w - s.nworkers) (-1) by simp [hlt]]
  exact if_pos ⟨h, h'⟩

/-- `start`, when the scheduler runs, when the assertion on `m_threads` fails, and otherwise. -/
inductive StartMove (s : State K) (tids : List Int) : State K → Prop where
  | running : s.stoppingFlag = false → StartMove s tids s
  | fails : s.stoppingFlag = true → s.threads ≠ [] →
      StartMove s tids { s with fault := some .startThreads }
  | starts : s.stoppingFlag = true → s.threads = [] → StartMove s tids (s.started tids)

/-- `start` is called outside `stop`, and gets one thread id for each of `m_threadCount`. -/
theorem startStep_move {s s' : State K} {tids : List Int} (h : startStep s tids = some s') :
    s.ctl = .user ∧ tids.length = s.threadCount ∧ StartMove s tids s' := by
  simp only [startStep, Option.ite_none_left_eq_some, not_or, ne_eq, Decidable.not_not] at h
  obtain ⟨⟨hctl, hlength⟩, h⟩ := h
  refine ⟨hctl, hlength, ?_⟩
  split at h
  · next hflag =>
    cases h
    exact .running (by simpa using hflag)
  · next hflag =>
    have hflag : s.stoppingFlag = true := by simpa using hflag
    split at h
    · next hthreads =>
      cases h
      exact .fails hflag hthreads
    · next hthreads =>
      cases h
      exact .starts hflag (by simpa using hthreads)

/-- `stop` sets `m_autoStop`; the rest of it are steps of their own. -/
theorem stopStep_eq {s s' : State K} (h : stopStep s = some s') :
    s.ctl = .user ∧ s' = { s with autoStop := true, ctl := .single } := by
  simp only [stopStep, Option.ite_none_right_eq_some, Option.some.injEq] at h
  exact ⟨h.1, h.2.symm⟩

/-- The steps of the owner inside `stop`, by its place there. -/
inductive CtlMove (s : State K) : State K → Prop where
  | single : s.ctl = .single →
      s.threadCount = 0 ∧ (s.rootFiber = some .term ∨ s.rootFiber = some .init) →
      CtlMove s { s with ctl := .singleSet }
  | notSingle : s.ctl = .single →
      ¬ (s.threadCount = 0 ∧ (s.rootFiber = some .term ∨ s.rootFiber = some .init)) →
      CtlMove s { s with ctl := .setStopping }
  | singleSet : s.ctl = .singleSet → CtlMove s { s with stoppingFlag := true, ctl := .singleTest }
  | stopping : s.ctl = .singleTest → s.stopping = true → CtlMove s { s with ctl := .user }
  | notStopping :
      s.ctl = .singleTest → s.stopping = false → CtlMove s { s with ctl := .setStopping }
  | setStopping :
      s.ctl = .setStopping → CtlMove s { s with stoppingFlag := true, ctl := .rootTest }
  | toCall : s.ctl = .rootTest → s.rootFiber.isSome = true → s.stopping = false →
      CtlMove s { s with ctl := .callRoot }
  | noCall : s.ctl = .rootTest → (s.rootFiber = none ∨ s.stopping = true) →
      CtlMove s { s with ctl := .swapThreads }
  | callExec :
      s.ctl = .callRoot → s.rootFiber = some .exec →
        CtlMove s { s with fault := some .callExec }
  | call : s.ctl = .callRoot → s.rootFiber = some .init →
      CtlMove s { s.setWorker s.nworkers (.fresh s.rootThread) with
        rootFiber := some .exec, nworkers := s.nworkers + 1, ctl := .inRoot s.nworkers }
  | neverReach : s.ctl = .callRoot → s.rootFiber ≠ some .exec → s.rootFiber ≠ some .init →
      CtlMove s { s with fault := some .rootNeverReach }
  | returned (w : Nat) : s.ctl = .inRoot w → (s.workers w).pc = .exited →
      CtlMove s { s with rootFiber := some .term, ctl := .swapThreads }
  | swapThreads :
      s.ctl = .swapThreads → CtlMove s { s with ctl := .join s.threads, threads := [] }
  | joined : s.ctl = .join [] → CtlMove s { s with ctl := .user }
  | join (w : Nat) (ws : List Nat) : s.ctl = .join (w :: ws) → (s.workers w).pc = .exited →
      CtlMove s { s with ctl := .join ws }

/-- The test that `join` waits for. -/
theorem PC.exited_of_hasExited {pc : PC K} (h : pc.hasExited = true) : pc = .exited := by
  match pc, h with
  | .exited, _ => rfl

/-- One case for each place inside `stop`, in the order of `ctlStep`. -/
theorem ctlStep_move {s s' : State K} (h : ctlStep s = some s') : CtlMove s s' := by
  unfold ctlStep at h
  split at h
  · cases h
  · next hctl =>
    split at h
    · next hsingle =>
      cases h
      exact .single hctl hsingle
    · next hsingle =>
      cases h
      exact .notSingle hctl hsingle
  · next hctl =>
    cases h
    exact .singleSet hctl
  · next hctl =>
    split at h
    · next hstop =>
      cases h
      exact .stopping hctl hstop
    · next hstop =>
      cases h
      exact .notStopping hctl (by simpa using hstop)
  · next hctl =>
    cases h
    exact .setStopping hctl
  · next hctl =>
    split at h
    · next hroot =>
      cases h
      exact .toCall hctl hroot.1 (by simpa using hroot.2)
    · next hroot =>
      cases h
      refine .noCall hctl ?_
      rw [not_and_or] at hroot
      simpa using hroot
  · next hctl =>
    split at h
    · next hroot =>
      cases h
      exact .callExec hctl hroot
    · next hroot =>
      cases h
      exact .call hctl hroot
    · next hexec hinit =>
      cases h
      exact .neverReach hctl hexec hinit
  · next w hctl =>
    split at h
    · next hexit =>
      cases h
      exact .returned w hctl (PC.exited_of_hasExited hexit)
    · cases h
  · next hctl =>
    cases h
    exact .swapThreads hctl
  · next hctl =>
    cases h
    exact .joined hctl
  · next w ws hctl =>
    split at h
    · next hexit =>
      cases h
      exact .join w ws hctl (PC.exited_of_hasExited hexit)
    · cases h

/-- The owner's step changes none of the fields that `OwnerFrame` is about. -/
theorem OwnerFrame.of_eq {s s' : State K} (hheap : s'.heap = s.heap) (hnfib : s'.nfib = s.nfib)
    (hfibers : s'.fibers = s.fibers) (hactive : s'.activeThreadCount = s.activeThreadCount)
    (hworkers : s'.workers = s.workers) (hn : s'.nworkers = s.nworkers)
    (hfault : ∀ e, s'.fault = some e → s.fault = some e ∨ e.ofOwner = true) :
    OwnerFrame s s' where
  heap := hheap
  nfib := hnfib
  fibers := hfibers
  active := hactive
  grow := Nat.le_of_eq hn.symm
  old := fun _ _ => by rw [hworkers]
  fresh := fun w h₁ h₂ => by omega
  fault := hfault

/-- `start` adds workers, or fails its assertion. -/
theorem startStep_frame {s s' : State K} {tids : List Int} (h : startStep s tids = some s') :
    OwnerFrame s s' := by
  cases (startStep_move h).2.2 with
  | running _ => exact .of_eq rfl rfl rfl rfl rfl rfl fun _ => .inl
  | fails _ _ => exact .of_eq rfl rfl rfl rfl rfl rfl (by rintro _ ⟨⟩; exact .inr rfl)
  | starts _ _ =>
    refine ⟨rfl, rfl, rfl, rfl, Nat.le_add_right _ _, fun w => State.started_old, ?_,
      fun _ => .inl⟩
    intro w h₁ h₂
    obtain ⟨t, -, hnew⟩ := State.started_new h₁ h₂
    exact ⟨t, hnew⟩

/-- The call of `stop` touches nothing that the workers use, -/
theorem stopStep_frame {s s' : State K} (h : stopStep s = some s') : OwnerFrame s s' := by
  obtain ⟨-, rfl⟩ := stopStep_eq h
  exact .of_eq rfl rfl rfl rfl rfl rfl fun _ => .inl

/-- and inside `stop` only the call of the root fiber adds a worker. -/
theorem ctlStep_frame {s s' : State K} (h : ctlStep s = some s') : OwnerFrame s s' := by
  cases ctlStep_move h with
  | call _ _ =>
    -- the one step that adds a worker
    refine ⟨rfl, rfl, rfl, rfl, Nat.le_succ _, ?_, ?_, fun _ => .inl⟩
    · intro w hw
      have hne : w ≠ s.nworkers := by
        simp only at hw
        omega
      exact s.setWorker_ne _ _ _ hne
    · intro w h₁ h₂
      obtain rfl : w = s.nworkers := by simp only at h₂; omega
      exact ⟨_, s.setWorker_self _ _⟩
  | callExec _ _ => exact .of_eq rfl rfl rfl rfl rfl rfl (by rintro _ ⟨⟩; exact .inr rfl)
  | neverReach _ _ _ => exact .of_eq rfl rfl rfl rfl rfl rfl (by rintro _ ⟨⟩; exact .inr rfl)
  | _ => exact .of_eq rfl rfl rfl rfl rfl rfl fun _ => .inl

/-- Every step of the system is one of the moves, and none is taken after a failed assertion. -/
theorem step_move {P : Prog K} {s s' : State K} {l : Label K} (h : step P s l = some s') :
    s.fault = none ∧ Move P s l s' := by
  unfold step at h
  split at h
  · cases h
  · next hfault =>
    refine ⟨by simpa using hfault, ?_⟩
    cases l with
    | start tids => exact .owner (.inl ⟨tids, rfl⟩) (startStep_frame h)
    | stop => exact .owner (.inr (.inl rfl)) (stopStep_frame h)
    | ctl => exact .owner (.inr (.inr rfl)) (ctlStep_frame h)
    | work w => exact workStep_move h
    | act w a => exact actStep_move h
    | ext a => exact extStep_move h

/-- What only `start` and `stop` change. -/
structure OwnerSame (s s' : State K) : Prop where
  ctl : s'.ctl = s.ctl
  rootFiber : s'.rootFiber = s.rootFiber
  stoppingFlag : s'.stoppingFlag = s.stoppingFlag
  autoStop : s'.autoStop = s.autoStop
  threads : s'.threads = s.threads
  threadCount : s'.threadCount = s.threadCount
  nworkers : s'.nworkers = s.nworkers

/-- A step that is not the owner's own. -/
def Label.notOwner : Label K → Bool
  | .start _ | .stop | .ctl => false
  | _ => true

/-- Workers, code in fibers and threads outside leave the owner's fields alone. -/
theorem Move.ownerSame {P : Prog K} {s s' : State K} {l : Label K} (hm : Move P s l s')
    (hl : l.notOwner = true) : OwnerSame s s' := by
  cases hm with
  | owner h _ => rcases h with ⟨_, rfl⟩ | rfl | rfl <;> cases hl
  | _ => exact ⟨rfl, rfl, rfl, rfl, rfl, rfl, rfl⟩

/-- A step that is the owner's, or not. -/
inductive StepBy (s s' : State K) : Label K → Prop where
  | other {l : Label K} : l.notOwner = true → OwnerSame s s' → StepBy s s' l
  | start {tids : List Int} : startStep s tids = some s' → StepBy s s' (.start tids)
  | stop : stopStep s = some s' → StepBy s s' .stop
  | ctl : ctlStep s = some s' → StepBy s s' .ctl

/-- Every step is one of the owner's, or leaves what only the owner changes. -/
theorem step_by {P : Prog K} {s s' : State K} {l : Label K} (hstep : step P s l = some s') :
    StepBy s s' l := by
  obtain ⟨hnone, hm⟩ := step_move hstep
  by_cases hl : l.notOwner = true
  · exact .other hl (hm.ownerSame hl)
  · unfold step at hstep
    rw [hnone] at hstep
    cases l with
    | start tids => exact .start hstep
    | stop => exact .stop hstep
    | ctl => exact .ctl hstep
    | _ => exact absurd rfl hl

/-- `m_autoStop` is never taken back. -/
theorem autoStop_persist {P : Prog K} {s s' : State K} {l : Label K}
    (hstep : step P s l = some s') (h : s.autoStop = true) : s'.autoStop = true := by
  cases step_by hstep with
  | other _ hsame => rw [hsame.autoStop, h]
  | start hstart => cases (startStep_move hstart).2.2 <;> exact h
  | stop hstop =>
    obtain ⟨-, rfl⟩ := stopStep_eq hstop
    rfl
  | ctl hctl => cases ctlStep_move hctl <;> exact h

/-- Only a worker's step fails one of the worker's assertions. -/
theorem Move.fault {P : Prog K} {s s' : State K} {l : Label K} {e : Fault} (hm : Move P s l s')
    (hs : s.fault = none) (he : s'.fault = some e) (howner : e.ofOwner = false) :
    Fails s l e := by
  have hsame : s.fault ≠ some e := by simp [hs]
  cases hm with
  | fails hf =>
    cases he
    exact hf
  | owner _ hf =>
    rcases hf.fault e he with h | h
    · exact absurd h hsame
    · rw [howner] at h
      cases h
  | _ => exact absurd he hsame

/-- A step of a worker that has left `run` is not possible. -/
theorem step_not_exited {P : Prog K} {s s' : State K} {l : Label K} {w : Nat}
    (hstep : step P s l = some s') (hl : l = .work w ∨ ∃ a, l = .act w a) :
    (s.workers w).pc ≠ .exited := by
  intro hpc
  unfold step at hstep
  split at hstep
  · cases hstep
  · rcases hl with rfl | ⟨a, rfl⟩
    · simp [workStep, hpc] at hstep
    · simp [actStep, hpc] at hstep

end Gwn.Scheduler
