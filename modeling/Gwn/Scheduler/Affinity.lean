import Gwn.Scheduler.Tidy

/-! # Tasks that are scheduled for one thread

    `schedule(fc, thread)` binds a task to a thread. The binding is kept only in the
    `FiberAndThread` that is pushed, and `run` takes that out of the queue with the task:

    - `Pins`: the thread that each task was last scheduled for, as a history
    - `OnThread`: a worker switches into a task only on that thread
    - `PinsKept`: the steps that pass the binding on, with `onThread_kept`

    The two branches of `run` that put a task back, `schedule(ft.fiber)` and
    `schedule(cb_fiber)`, name no thread: a task that has yielded `READY` goes on
    anywhere (`not_onThread`). -/

namespace Gwn.Scheduler

open LTS

variable {K : Type} {P : Prog K}

/-! ### What the tasks are scheduled for -/

structure Pins where
  /-- The thread that the task in each fiber was last scheduled for; `-1` is any thread. -/
  thread : Nat → Int
  /-- The `thread` of the entry that each worker took last. -/
  taken : Nat → Int

def Pins.initial : Pins :=
  { thread := fun _ => -1, taken := fun _ => -1 }

/-- The fiber whose task this step binds to a thread: one that a caller schedules, or
    the one that a callback taken from the queue will run in. -/
def State.binds (s : State K) (h : Pins) : Label K → Option (Nat × Int)
  | .ext (.schedule (some (.fiber f)) thread) => some (f, thread)
  | .act _ (.schedule (some (.fiber f)) thread) => some (f, thread)
  | .work w =>
    match (s.workers w).pc with
    | .prepare _ => some ((s.workers w).cbFiber.getD s.nfib, h.taken w)
    | _ => none
  | _ => none

def Pins.bind (h : Pins) : Option (Nat × Int) → Pins
  | some (f, thread) => { h with thread := Function.update h.thread f thread }
  | none => h

/-- The entry that this step takes from the queue. -/
def State.dequeues (s : State K) (w : Nat) : Option (FiberAndThread K) :=
  match (s.workers w).pc with
  | .scan => (scanQueue s.heap (s.workers w).tid s.fibers).map (·.1)
  | _ => none

def Pins.next (h : Pins) (s : State K) (l : Label K) : Pins :=
  match l with
  | .work w =>
    match s.dequeues w with
    | some e => { h with taken := Function.update h.taken w e.thread }
    | none => h.bind (s.binds h l)
  | _ => h.bind (s.binds h l)

/-- The scheduler, and what its tasks are scheduled for. -/
def pinned (P : Prog K) (threads : Nat) (useCaller : Bool) (caller : Int) :
    System (State K × Pins) (Label K) :=
  (scheduler P threads useCaller caller).withHistory .initial Pins.next

/-! ### What is asked of the workers, and of the steps -/

/-- Each segment of a task begins on the thread that the task was last scheduled for. -/
def OnThread (p : State K × Pins) : Prop :=
  ∀ w b f, (p.1.workers w).pc = .on b f .switchIn → b ≠ .idle →
    p.2.thread f = -1 ∨ p.2.thread f = (p.1.workers w).tid

/-- The fiber whose next segment this worker has taken on, but not begun. -/
def PC.upcoming : PC K → Option Nat
  | .check (some (.fiber f)) => some f
  | .on .idle _ _ => none
  | .on _ f .assertNotExec | .on _ f .setExec | .on _ f .switchIn => some f
  | _ => none

/-- Every segment of `f` that is under way is to run on `thread`. -/
def State.OnlyOn (s : State K) (f : Nat) (thread : Int) : Prop :=
  (∀ e ∈ s.fibers, e.task.fiber? = some f → e.thread = thread) ∧
    ∀ w, w < s.nworkers → (s.workers w).pc.upcoming = some f → (s.workers w).tid = thread

instance (s : State K) (f : Nat) (thread : Int) : Decidable (s.OnlyOn f thread) :=
  inferInstanceAs (Decidable (_ ∧ _))

/-- The fiber that this step of `run` puts back into the queue. -/
def State.requeues (s : State K) : Label K → Option Nat
  | .work w =>
    match (s.workers w).pc with
    | .on _ f .requeue => some f
    | _ => none
  | _ => none

/-- No task that is bound to a thread is put back by `run`, and none is bound to a
    thread while it is under way to another. -/
def PinsKept (p : State K × Pins) (l : Label K) : Prop :=
  (∀ f ∈ p.1.requeues l, p.2.thread f = -1) ∧
    ∀ b ∈ p.1.binds p.2 l, b.2 = -1 ∨ p.1.OnlyOn b.1 b.2

instance (p : State K × Pins) (l : Label K) : Decidable (PinsKept p l) :=
  inferInstanceAs (Decidable (_ ∧ _))

/-! ### Bindings in a state -/

/-- A callback has been taken from the queue and is not in its fiber yet. -/
def PC.hasCallback : PC K → Bool
  | .check (some (.cb _)) | .prepare _ => true
  | _ => false

/-- What is under way is on its way to the right thread. -/
structure Bound (s : State K) (h : Pins) : Prop where
  queue : ∀ e ∈ s.fibers, ∀ f, e.task.fiber? = some f →
    h.thread f = -1 ∨ h.thread f = e.thread
  worker : ∀ w f, (s.workers w).pc.upcoming = some f →
    h.thread f = -1 ∨ h.thread f = (s.workers w).tid
  callback : ∀ w, (s.workers w).pc.hasCallback = true →
    h.taken w = -1 ∨ h.taken w = (s.workers w).tid

section steps
variable {s s' : State K} {h : Pins}

/-- Worker `w` moves on and takes on nothing new. -/
theorem Bound.setWorker (hb : Bound s h) {w : Nat} {y : Worker K}
    (hfibers : ∀ e ∈ s'.fibers, e ∈ s.fibers)
    (hworkers : s'.workers = Function.update s.workers w y) (htid : y.tid = (s.workers w).tid)
    (hup : ∀ f, y.pc.upcoming = some f → (s.workers w).pc.upcoming = some f)
    (hcb : y.pc.hasCallback = true → (s.workers w).pc.hasCallback = true) : Bound s' h := by
  refine ⟨fun e he => hb.queue e (hfibers e he), fun v f hv => ?_, fun v hv => ?_⟩
  · by_cases hvw : v = w
    · subst hvw
      rw [hworkers, Function.update_self] at hv ⊢
      rw [htid]
      exact hb.worker v f (hup f hv)
    · rw [hworkers, Function.update_of_ne hvw] at hv ⊢
      exact hb.worker v f hv
  · by_cases hvw : v = w
    · subst hvw
      rw [hworkers, Function.update_self] at hv ⊢
      rw [htid]
      exact hb.callback v (hcb hv)
    · rw [hworkers, Function.update_of_ne hvw] at hv ⊢
      exact hb.callback v hv

/-- `f` is bound to `thread`, and everything under way for `f` goes there. -/
theorem Bound.bind (hwf : WellFormed s) (hb : Bound s h) {f : Nat} {thread : Int}
    (honly : thread = -1 ∨ s.OnlyOn f thread) : Bound s (h.bind (some (f, thread))) := by
  have hself : (h.bind (some (f, thread))).thread f = thread := Function.update_self ..
  have hother : ∀ g, g ≠ f → (h.bind (some (f, thread))).thread g = h.thread g :=
    fun g hg => Function.update_of_ne hg ..
  refine ⟨fun e he g hg => ?_, fun w g hg => ?_, hb.callback⟩
  · by_cases hgf : g = f
    · subst hgf
      rw [hself]
      exact honly.imp_right fun ho => (ho.1 e he hg).symm
    · rw [hother g hgf]
      exact hb.queue e he g hg
  · by_cases hgf : g = f
    · subst hgf
      rw [hself]
      have hlt : w < s.nworkers := by
        apply hwf.lt_nworkers
        intro hpc
        rw [hpc] at hg
        cases hg
      exact honly.imp_right fun ho => (ho.2 w hlt hg).symm
    · rw [hother g hgf]
      exact hb.worker w g hg

/-- A caller of `schedule` binds what it schedules. -/
theorem Bound.schedule (hwf : WellFormed s) (hb : Bound s h) {fc : Option (Task K)} {thread : Int}
    {bound : Option (Nat × Int)}
    (hbound : bound = (fc.bind Task.fiber?).map fun f => (f, thread))
    (honly : ∀ b ∈ bound, b.2 = -1 ∨ s.OnlyOn b.1 b.2) :
    Bound (s.schedule fc thread) (h.bind bound) := by
  have hbefore : Bound s (h.bind bound) := by
    cases bound with
    | none => exact hb
    | some b => exact hb.bind hwf (honly b rfl)
  refine ⟨fun e he f hf => ?_, hbefore.worker, hbefore.callback⟩
  rw [State.schedule_fibers, mem_scheduleNoLock] at he
  rcases he with he | ⟨t, rfl, rfl⟩
  · exact hbefore.queue e he f hf
  · -- the entry that is pushed
    have hnew : bound = some (f, thread) := by
      rw [hbound]
      simpa using hf
    right
    rw [hnew]
    exact Function.update_self ..

/-- A step of a worker that takes nothing and binds nothing. -/
theorem Pins.next_same {w : Nat} {pc : PC K} (hpc : (s.workers w).pc = pc) (hscan : pc ≠ .scan)
    (hprepare : ∀ k, pc ≠ .prepare k) : h.next s (.work w) = h := by
  have htakes : s.dequeues w = none := by
    unfold State.dequeues
    split
    · next hpc' => exact absurd (hpc.symm.trans hpc') hscan
    · rfl
  have hbinds : s.binds h (.work w) = none := by
    show (match (s.workers w).pc with
      | .prepare _ => some ((s.workers w).cbFiber.getD s.nfib, h.taken w)
      | _ => none) = none
    split
    · next k hpc' => exact absurd (hpc.symm.trans hpc') (hprepare k)
    · rfl
  show (match s.dequeues w with
    | some e => { h with taken := Function.update h.taken w e.thread }
    | none => h.bind (s.binds h (.work w))) = h
  rw [htakes, hbinds]
  rfl

theorem Pins.next_prepare {w : Nat} {k : K} (hpc : (s.workers w).pc = .prepare k) :
    h.next s (.work w) = h.bind (some ((s.workers w).cbFiber.getD s.nfib, h.taken w)) := by
  simp [Pins.next, State.dequeues, State.binds, hpc]

theorem Pins.next_scan {w : Nat} (hpc : (s.workers w).pc = .scan) :
    h.next s (.work w) = match scanQueue s.heap (s.workers w).tid s.fibers with
      | some (e, _) => { h with taken := Function.update h.taken w e.thread }
      | none => h := by
  simp only [Pins.next, State.dequeues, State.binds, hpc]
  cases scanQueue s.heap (s.workers w).tid s.fibers <;> rfl

/-- The worker with a callback takes up the fiber it will run in. -/
theorem Bound.prepare (hwf : WellFormed s) (hb : Bound s h) {w g : Nat} {k : K} {y : Worker K}
    (hpc : (s.workers w).pc = .prepare k) (hg : (s.workers w).cbFiber.getD s.nfib = g)
    (hkept : PinsKept (s, h) (.work w)) (hfibers : s'.fibers = s.fibers)
    (hworkers : s'.workers = Function.update s.workers w y) (hy : y.pc = .on .cb g .assertNotExec)
    (htid : y.tid = (s.workers w).tid) : Bound s' (h.next s (.work w)) := by
  have hbinds : s.binds h (.work w) = some (g, h.taken w) := by
    simp [State.binds, hpc, hg]
  have hbefore : Bound s (h.bind (some (g, h.taken w))) :=
    hb.bind hwf (hkept.2 (g, h.taken w) hbinds)
  have hthread : (h.bind (some (g, h.taken w))).thread g = h.taken w := Function.update_self ..
  rw [Pins.next_prepare hpc, hg]
  refine ⟨?_, fun v f hv => ?_, fun v hv => ?_⟩
  · rw [hfibers]
    exact hbefore.queue
  · by_cases hvw : v = w
    · subst hvw
      rw [hworkers, Function.update_self] at hv ⊢
      rw [hy] at hv
      cases hv
      rw [hthread, htid]
      exact hb.callback v (by rw [hpc]; rfl)
    · rw [hworkers, Function.update_of_ne hvw] at hv ⊢
      exact hbefore.worker v f hv
  · by_cases hvw : v = w
    · subst hvw
      rw [hworkers, Function.update_self, hy] at hv
      cases hv
    · rw [hworkers, Function.update_of_ne hvw] at hv ⊢
      exact hbefore.callback v hv

/-- The worker takes an entry that is for its thread or for any. -/
theorem Bound.dequeue (hb : Bound s h) {w : Nat} {e : FiberAndThread K}
    {q : List (FiberAndThread K)}
    (hpc : (s.workers w).pc = .scan)
    (hq : scanQueue s.heap (s.workers w).tid s.fibers = some (e, q)) (hfibers : s'.fibers = q)
    (hworkers : s'.workers =
      Function.update s.workers w { s.workers w with pc := .check (some e.task) }) :
    Bound s' (h.next s (.work w)) := by
  obtain ⟨pre, post, hsplit, hrest, hskip, -⟩ := scanQueue_some hq
  have hmem : e ∈ s.fibers := by simp [hsplit]
  have hthread : e.thread = -1 ∨ e.thread = (s.workers w).tid := by
    by_contra hne
    rw [not_or] at hne
    unfold FiberAndThread.skipped at hskip
    rw [if_pos hne] at hskip
    cases hskip
  rw [Pins.next_scan hpc, hq]
  refine ⟨fun x hx => ?_, fun v f hv => ?_, fun v hv => ?_⟩
  · apply hb.queue x
    rw [hfibers, hrest] at hx
    rw [hsplit]
    rcases List.mem_append.mp hx with hx | hx
    · exact List.mem_append_left _ hx
    · exact List.mem_append_right _ (List.mem_cons_of_mem _ hx)
  · by_cases hvw : v = w
    · subst hvw
      rw [hworkers, Function.update_self] at hv ⊢
      have hf : e.task.fiber? = some f := by
        cases htask : e.task with
        | fiber g =>
          rw [htask] at hv
          exact hv
        | cb k =>
          rw [htask] at hv
          cases hv
      -- the entry says what its fiber is bound to, if to any thread
      rcases hb.queue e hmem f hf with hany | hbound
      · exact .inl hany
      · rcases hthread with he | he
        · exact .inl (hbound.trans he)
        · exact .inr (hbound.trans he)
    · rw [hworkers, Function.update_of_ne hvw] at hv ⊢
      exact hb.worker v f hv
  · by_cases hvw : v = w
    · subst hvw
      rw [hworkers, Function.update_self]
      show Function.update h.taken v e.thread v = -1 ∨ Function.update h.taken v e.thread v = _
      rw [Function.update_self]
      exact hthread
    · rw [hworkers, Function.update_of_ne hvw] at hv ⊢
      show Function.update h.taken w e.thread v = -1 ∨ Function.update h.taken w e.thread v = _
      rw [Function.update_of_ne hvw]
      exact hb.callback v hv

theorem FiberMove.upcoming {b : Branch} {f : Nat} {x x' : Fiber K} {ph ph' : Phase K}
    (hm : FiberMove b x ph x' ph') {g : Nat} (hg : (PC.on b f ph').upcoming = some g) :
    (PC.on b f ph).upcoming = some g := by
  cases hm <;> cases b <;> first | exact hg | cases hg

theorem CodeMove.not_upcoming {b : Branch} {f : Nat} {c' : Code K} {a : Act K} {x x' : Fiber K}
    {ph' : Phase K} (hm : CodeMove c' a x x' ph') : (PC.on b f ph').upcoming = none := by
  cases hm <;> cases b <;> rfl

/-- A step that passes the bindings on. -/
theorem Bound.move {l : Label K} (hwf : WellFormed s) (hb : Bound s h) (hm : Move P s l s')
    (hkept : PinsKept (s, h) l) : Bound s' (h.next s l) := by
  -- most steps of a worker take on nothing new
  have stay : ∀ {w : Nat} {pc : PC K} {y : Worker K}, (s.workers w).pc = pc → pc ≠ .scan →
      (∀ k, pc ≠ .prepare k) → (∀ e ∈ s'.fibers, e ∈ s.fibers) →
      s'.workers = Function.update s.workers w y → y.tid = (s.workers w).tid →
      (∀ f, y.pc.upcoming = some f → pc.upcoming = some f) →
      (y.pc.hasCallback = true → pc.hasCallback = true) → Bound s' (h.next s (.work w)) := by
    intro w pc y hpc hscan hprepare hfibers hworkers htid hup hcb
    rw [Pins.next_same hpc hscan hprepare]
    subst hpc
    exact hb.setWorker hfibers hworkers htid hup hcb
  cases hm with
  | fails hf =>
    cases hf with
    | swapInExec hpc _ | recycle hpc _ | neverReach hpc =>
      rw [Pins.next_same hpc nofun nofun]
      exact ⟨hb.queue, hb.worker, hb.callback⟩
    | yieldNotExec _ ha _ =>
      rcases ha with rfl | rfl <;> exact ⟨hb.queue, hb.worker, hb.callback⟩
    | @reset w f k hpc _ _ =>
      have hbinds : s.binds h (.work w) = some ((s.workers w).cbFiber.getD s.nfib, h.taken w) := by
        simp [State.binds, hpc]
      have hbefore := hb.bind hwf (hkept.2 _ hbinds)
      rw [Pins.next_prepare hpc]
      exact ⟨hbefore.queue, hbefore.worker, hbefore.callback⟩
  | owner hl hf =>
    have hsame : h.next s l = h := by rcases hl with ⟨_, rfl⟩ | rfl | rfl <;> rfl
    rw [hsame]
    refine ⟨?_, fun w f hw => ?_, fun w hw => ?_⟩
    · rw [hf.fibers]
      exact hb.queue
    · rcases hf.worker w with heq | ⟨-, tid, heq⟩
      · rw [heq] at hw ⊢
        exact hb.worker w f hw
      · rw [heq] at hw
        cases hw
    · rcases hf.worker w with heq | ⟨-, tid, heq⟩
      · rw [heq] at hw ⊢
        exact hb.callback w hw
      · rw [heq] at hw
        cases hw
  | @extSchedule fc thread _ =>
    refine hb.schedule hwf ?_ hkept.2
    rcases fc with _ | ⟨f⟩ | ⟨k⟩ <;> rfl
  | extNew => exact ⟨hb.queue, hb.worker, hb.callback⟩
  | prelude hpc => exact stay hpc nofun nofun (fun _ he => he) rfl rfl nofun nofun
  | scanNone hpc hq =>
    rw [Pins.next_scan hpc, hq]
    exact hb.setWorker (fun _ he => he) rfl rfl nofun nofun
  | scanSome hpc hq => exact hb.dequeue hpc hq rfl rfl
  | checkNone hpc | checkDone hpc _ | idleExit hpc _ _ | idleEnter hpc _ _ | leave hpc _ _
  | setHold hpc | recycle hpc _ =>
    exact stay hpc nofun nofun (fun _ he => he) rfl rfl nofun nofun
  | @decrement w b f hpc _ =>
    refine stay hpc nofun nofun (fun _ he => he) rfl rfl (fun g hg => ?_) nofun
    cases b <;> cases hg
  | checkFiber hpc _ => exact stay hpc nofun nofun (fun _ he => he) rfl rfl (fun f hf => hf) nofun
  | checkCb hpc => exact stay hpc nofun nofun (fun _ he => he) rfl rfl nofun (fun _ => rfl)
  | prepareOld hpc hg _ =>
    exact hb.prepare hwf hpc (by rw [hg]; exact rfl) hkept rfl rfl rfl rfl
  | prepareNew hpc hg =>
    exact hb.prepare hwf hpc (by rw [hg]; exact rfl) hkept rfl rfl rfl rfl
  | fiber hpc hx =>
    refine stay hpc nofun nofun (fun _ he => he) rfl rfl (fun g hg => hx.upcoming hg) nofun
  | @requeue w b f hpc =>
    have hany : h.thread f = -1 := hkept.1 f (by simp [State.requeues, hpc])
    have hbefore : Bound (s.setWorker w { s.workers w with
        pc := .scan, cbFiber := if b = .cb then none else (s.workers w).cbFiber }) h :=
      hb.setWorker (fun _ he => he) rfl rfl nofun nofun
    rw [Pins.next_same hpc nofun nofun]
    refine ⟨fun e he g hg => ?_, hbefore.worker, hbefore.callback⟩
    rw [State.setWorker_fibers, State.schedule_fibers, mem_scheduleNoLock] at he
    rcases he with he | ⟨t, ht, rfl⟩
    · exact hb.queue e he g hg
    · -- the entry that is pushed is for any thread, and so is the task
      cases ht
      cases hg
      exact .inl hany
  | @code w b f c c' a x ph' hpc _ hx _ =>
    have hsame : h.next s (.act w a) = h := by cases hx <;> rfl
    rw [hsame]
    refine hb.setWorker (fun _ he => he) rfl rfl (fun g hg => ?_) nofun
    have hnone : (PC.on b f ph').upcoming = none := hx.not_upcoming
    cases hnone.symm.trans hg
  | @codeSchedule w b f c c' fc thread hpc _ _ =>
    have hbefore : Bound (s.schedule fc thread) (h.next s (.act w (.schedule fc thread))) := by
      refine hb.schedule hwf ?_ hkept.2
      rcases fc with _ | ⟨f⟩ | ⟨k⟩ <;> rfl
    refine hbefore.setWorker (fun _ he => he) rfl rfl (fun g hg => ?_) nofun
    cases b <;> cases hg
  | @codeNew w b f c c' k hpc _ =>
    refine hb.setWorker (fun _ he => he) rfl rfl (fun g hg => ?_) nofun
    cases b <;> cases hg

end steps

/-! ### Whole runs -/

theorem bound_reachable {threads : Nat} {useCaller : Bool} {caller : Int} :
    ∀ p, ((pinned P threads useCaller caller).restrict PinsKept).Reachable p →
      Bound p.1 p.2 := by
  refine System.invariant_of (J := fun p => WellFormed p.1) ?_ ?_ ?_
  · intro p hp
    exact wellFormed_reachable hp.of_restrict.of_history
  · refine ⟨fun e he => ?_, fun w f hw => ?_, fun w hw => ?_⟩
    · cases he
    · cases hw
    · cases hw
  · intro p l p' hwf hb hstep
    obtain ⟨hkept, hstep⟩ := System.restrict_step.mp hstep
    obtain ⟨hstep, hnext⟩ := System.withHistory_step.mp hstep
    rw [hnext]
    exact hb.move hwf (step_move hstep).2 hkept

/-- For any number of workers, any code and any interleaving: as long as `run` puts back
    no task that is bound to a thread, and a task is bound to a thread only while nothing
    of it is under way to another, every segment of a task begins on the thread that the
    task was last scheduled for. -/
theorem onThread_kept {threads : Nat} {useCaller : Bool} {caller : Int} {p : State K × Pins}
    (h : ((pinned P threads useCaller caller).restrict PinsKept).Reachable p) : OnThread p := by
  intro w b f hpc hb
  have hupcoming : (p.1.workers w).pc.upcoming = some f := by
    rw [hpc]
    cases b with
    | idle => exact absurd rfl hb
    | _ => rfl
  exact (bound_reachable p h).worker w f hupcoming

/-- A fiber for thread 7 holds and is scheduled again for thread 8. -/
def movedOver : List (Label Script) :=
  [.start [7, 8], .ext (.newFiber (.yieldToHold .ret) 0), .ext (.schedule (some (.fiber 0)) 7),
    .work 1, .work 0, .work 0, .work 0, .work 0, .work 0, .work 0, .work 0, .act 0 .yieldToHold,
    .work 0, .work 0, .work 0, .work 0, .work 0, .work 0, .ext (.schedule (some (.fiber 0)) 8),
    .work 1, .work 1, .work 1, .work 1]

theorem onThread_kept_movedOver :
    ∃ p, ((pinned scripted 2 false 0).restrict PinsKept).exec
      (.initial 2 false 0, .initial) movedOver
        = some p ∧ (p.1.workers 1).pc = .on .task 0 .switchIn ∧ p.2.thread 0 = 8 ∧
          OnThread p := by
  have hrun : (((pinned scripted 2 false 0).restrict PinsKept).exec (.initial 2 false 0, .initial)
      movedOver).isSome := by decide
  exact ⟨_, (Option.some_get hrun).symm, rfl, rfl,
    onThread_kept (System.reachable_get movedOver hrun)⟩

/-- A fiber for thread 7 yields `READY`; the worker on thread 8 takes it up. -/
def putBack : List (Label Script) :=
  [.start [7, 8], .ext (.newFiber (.yieldToReady .ret) 0), .ext (.schedule (some (.fiber 0)) 7),
    .work 1, .work 0, .work 0, .work 0, .work 0, .work 0, .work 0, .work 0, .act 0 .yieldToReady,
    .work 0, .work 0, .work 0, .work 0, .work 0, .work 1, .work 1, .work 1, .work 1]

/-- `schedule(ft.fiber)` puts the fiber back for any thread. -/
theorem not_onThread : ¬ ∀ p, (pinned scripted 2 false 0).Reachable p → OnThread p := by
  intro h
  have hthread := h _ (System.reachable_get putBack (by decide))
  have heq : (7 : Int) = -1 ∨ (7 : Int) = 8 := hthread 1 .task 0 (by decide) nofun
  rcases heq with heq | heq <;> cases heq

end Gwn.Scheduler
