import Gwn.Scheduler.Exclusive
import Gwn.Scheduler.Tidy

/-! # Handles of callbacks

    A callback can take a `Fiber::ptr` to the fiber it runs in with `Fiber::GetThis()`
    and let others schedule it. When it returns before its first yield, `run` keeps the
    fiber as `cb_fiber`, puts it back to `INIT` and uses it for the next callback, whoever
    else has a pointer to it. This module provides:

    - `handled`: the scheduler with calls of `GetThis()`, where a fiber is scheduled only
      by those who have a handle to it
    - `HandlesDone`: a handle of a task that has finished never stands for another one
    - `OwnCbFiber`: `run` recycles only what nobody else has, with `handlesDone_reachable` -/

namespace Gwn.Scheduler

open LTS

variable {K : Type} {P : Prog K}

/-! ### Taking handles -/

/-- A step of the scheduler, or a task that gets a handle to its own fiber. -/
inductive HandleLabel (K : Type) where
  | run (l : Label K)
  /-- The task that worker `w` executes calls `GetThis()` and keeps the result, or hands
      it on. -/
  | getThis (w : Nat)
deriving DecidableEq

/-- Who has handles, and which of them have outlived their task. -/
structure Handles where
  /-- Somebody besides `run` has a handle to this fiber. -/
  out : Nat → Bool
  /-- The task that such a handle stood for has finished. -/
  stale : Nat → Bool

def Handles.initial : Handles :=
  { out := fun _ => false, stale := fun _ => false }

/-- The fiber in which worker `w` executes a task. -/
def State.current (s : State K) (w : Nat) : Option Nat :=
  match (s.workers w).pc with
  | .on _ f (.inside (.body (.user _))) => if (s.heap f).idle then none else some f
  | _ => none

/-- The fiber whose task ends with this step. -/
def State.finishes (s : State K) : Label K → Option Nat
  | .act w .ret | .act w .throw =>
    match (s.workers w).pc with
    | .on _ f (.inside (.body _)) => some f
    | _ => none
  | .work w =>
    match (s.workers w).pc with
    | .on _ f (.inside .entry) => if (s.heap f).cb.isNone then some f else none
    | _ => none
  | _ => none

/-- The fiber that somebody besides `run` schedules with this step. -/
def Label.scheduled : Label K → Option Nat
  | .ext (.schedule (some (.fiber f)) _) | .act _ (.schedule (some (.fiber f)) _) => some f
  | _ => none

/-- Whoever creates a fiber has a handle to it. -/
def Handles.next (h : Handles) (s : State K) (l : Label K) : Handles where
  out := match l with
    | .ext (.newFiber _ f) | .act _ (.newFiber _ f) => Function.update h.out f true
    | _ => h.out
  stale := match s.finishes l with
    | some f => Function.update h.stale f (h.stale f || h.out f)
    | none => h.stale

/-- The scheduler, with the handles that its tasks and other threads have; a fiber is
    scheduled by those who have one. -/
def handled (P : Prog K) (threads : Nat) (useCaller : Bool) (caller : Int) :
    System (State K × Handles) (HandleLabel K) where
  init := (.initial threads useCaller caller, .initial)
  step p l :=
    match l with
    | .run l =>
      if ∀ f ∈ l.scheduled, p.2.out f = true then
        (step P p.1 l).map fun s' => (s', p.2.next p.1 l)
      else none
    | .getThis w =>
      (p.1.current w).map fun f => (p.1, { p.2 with out := Function.update p.2.out f true })

/-! ### What is asked of handles, and of the steps -/

/-- The task in the fiber has ended, and what is left is the worker's own. -/
def Phase.ended : Phase K → Bool
  | .switchOut .done | .returned | .testReady | .testDone | .recycle => true
  | _ => false

/-- Scheduling a handle of a finished task is without effect. -/
structure HandlesDone (p : State K × Handles) : Prop where
  /-- A worker that takes it from the queue finds a fiber that has finished. -/
  dequeued : ∀ w f, p.2.stale f = true → (p.1.workers w).pc = .check (some (.fiber f)) →
    (p.1.heap f).state.finished = true
  /-- Nothing is executed in its fiber, neither an empty function nor another task. -/
  notRun : ∀ w b f ph, p.2.stale f = true → (p.1.workers w).pc = .on b f ph → ph.ended = true
  /-- No assertion of `reset` or `swapIn` fails on its fiber. -/
  asserts : ∀ f, p.2.stale f = true →
    p.1.fault ≠ some (.resetState f) ∧ p.1.fault ≠ some (.swapInExec f)

/-- The fiber that this step puts back to `INIT` with `cb_fiber->reset(nullptr)`. -/
def State.recycles (s : State K) : Label K → Option Nat
  | .work w =>
    match (s.workers w).pc with
    | .on _ f .recycle => some f
    | _ => none
  | _ => none

/-- A fiber is recycled only when nobody else has a handle to it, and taken up only when
    no worker has it in hand. -/
def OwnCbFiber (p : State K × Handles) : HandleLabel K → Prop
  | .run l => TakesFree p.1 l ∧ ∀ f ∈ p.1.recycles l, p.2.out f = false
  | .getThis _ => True

instance (p : State K × Handles) : (l : HandleLabel K) → Decidable (OwnCbFiber p l)
  | .run l =>
    inferInstanceAs (Decidable (TakesFree p.1 l ∧ ∀ f ∈ p.1.recycles l, p.2.out f = false))
  | .getThis _ => .isTrue trivial

/-! ### Fibers that are kept as `cb_fiber` -/

/-- Fibers are never taken away, and keep their kind. -/
theorem Move.extends {s s' : State K} {l : Label K} (hm : Move P s l s') : Extends s s' := by
  cases hm with
  | owner _ hf => exact hf.extends
  | extNew | codeNew _ _ => exact extends_alloc s _
  | prelude _ | prepareNew _ _ => exact extends_alloc s _
  | prepareOld _ _ _ | recycle _ _ => exact extends_setFiber s _ rfl
  | fiber _ hx => exact extends_setFiber s _ hx.idle_eq
  | setHold _ => exact extends_setFiber s _ rfl
  | code _ _ hx _ => exact extends_setFiber s _ hx.idle_eq
  | _ => exact extends_of_eq rfl rfl

/-- A `cb_fiber` that is not in use is known to nobody and not queued. -/
structure Spares (s : State K) (out : Nat → Bool) : Prop where
  task : ∀ f, out f = true → s.IsTask f
  hand : ∀ w f, (s.workers w).cbFiber = some f → out f = true →
    ∃ ph, (s.workers w).pc = .on .cb f ph
  queue : ∀ w f, (s.workers w).cbFiber = some f →
    ∀ e ∈ s.fibers, e.task = .fiber f → out f = true
  loose : ∀ w f, (s.workers w).pc.loose = some f → ∀ v, (s.workers v).cbFiber ≠ some f

namespace Spares

variable {s s' : State K} {out : Nat → Bool}

/-- Worker `w` moves on; it gets no other `cb_fiber`, and a fiber at most out of the queue. -/
theorem setWorker (h : Spares s out) (hext : Extends s s') {w : Nat} {y : Worker K}
    (hfibers : ∀ e ∈ s'.fibers, e ∈ s.fibers)
    (hworkers : s'.workers = Function.update s.workers w y)
    (hcb : ∀ g, y.cbFiber = some g → (s.workers w).cbFiber = some g)
    (hloose : ∀ g, y.pc.loose = some g →
      (s.workers w).pc.loose = some g ∨ ∀ v, (s.workers v).cbFiber ≠ some g)
    (hhand : ∀ g ph, y.cbFiber = some g → out g = true → (s.workers w).pc = .on .cb g ph →
      ∃ ph', y.pc = .on .cb g ph') : Spares s' out := by
  have hself : s'.workers w = y := by rw [hworkers, Function.update_self]
  have hne : ∀ v, v ≠ w → s'.workers v = s.workers v := by
    intro v hv
    rw [hworkers, Function.update_of_ne hv]
  have hcbs : ∀ v g, (s'.workers v).cbFiber = some g → (s.workers v).cbFiber = some g := by
    intro v g hv
    by_cases hvw : v = w
    · rw [hvw, hself] at hv
      exact hvw ▸ hcb g hv
    · rwa [hne v hvw] at hv
  refine ⟨fun f hf => hext.isTask (h.task f hf), fun v f hv hf => ?_,
    fun v f hv e he => h.queue v f (hcbs v f hv) e (hfibers e he), fun v f hv u hu => ?_⟩
  · obtain ⟨ph, hpc⟩ := h.hand v f (hcbs v f hv) hf
    by_cases hvw : v = w
    · subst hvw
      rw [hself] at hv ⊢
      exact hhand f ph hv hf hpc
    · rw [hne v hvw]
      exact ⟨ph, hpc⟩
  · by_cases hvw : v = w
    · rw [hvw, hself] at hv
      rcases hloose f hv with hold | hnew
      · exact h.loose w f hold u (hcbs u f hu)
      · exact hnew u (hcbs u f hu)
    · rw [hne v hvw] at hv
      exact h.loose v f hv u (hcbs u f hu)

/-- A handle is scheduled by somebody who has it. -/
theorem schedule (h : Spares s out) {fc : Option (Task K)} (thread : Int)
    (hfc : ∀ f, fc = some (.fiber f) → out f = true) : Spares (s.schedule fc thread) out := by
  refine ⟨h.task, h.hand, fun w f hw e he hf => ?_, h.loose⟩
  rw [State.schedule_fibers, mem_scheduleNoLock] at he
  rcases he with he | ⟨t, rfl, rfl⟩
  · exact h.queue w f hw e he hf
  · exact hfc f (congrArg some hf)

/-- A fiber is created by somebody besides `run`. -/
theorem alloc (h : Spares s out) (hwf : WellFormed s) {x : Fiber K} (hx : x.idle = false) :
    Spares (s.alloc x) (Function.update out s.nfib true) := by
  have hlt : ∀ w f, (s.workers w).cbFiber = some f → f ≠ s.nfib :=
    fun w f hw => Nat.ne_of_lt ((hwf.worker w).cb f hw).1
  refine ⟨fun f hf => ?_, fun w f hw hf => ?_, fun w f hw e he hef => ?_, h.loose⟩
  · by_cases hnew : f = s.nfib
    · subst hnew
      exact ⟨Nat.lt_succ_self _, by rw [s.alloc_self, hx]⟩
    · rw [Function.update_of_ne hnew] at hf
      exact (extends_alloc s x).isTask (h.task f hf)
  · rw [Function.update_of_ne (hlt w f hw)] at hf
    exact h.hand w f hw hf
  · rw [Function.update_of_ne (hlt w f hw)]
    exact h.queue w f hw e he hef

/-- Worker `w` drops or keeps the fiber that it puts back into the queue. -/
theorem requeue (h : Spares s out) (hwf : WellFormed s) {w : Nat} {b : Branch} {f : Nat}
    (hpc : (s.workers w).pc = .on b f .requeue) :
    Spares ((s.schedule (some (.fiber f)) (-1)).setWorker w { s.workers w with
      pc := .scan, cbFiber := if b = .cb then none else (s.workers w).cbFiber }) out := by
  have hdropped : Spares (s.setWorker w { s.workers w with
      pc := .scan, cbFiber := if b = .cb then none else (s.workers w).cbFiber }) out := by
    refine h.setWorker (extends_of_eq rfl rfl) (fun _ he => he) rfl (fun g => cbFiber_of_dropped)
      nofun (fun g ph hg _ hcb => ?_)
    rw [hpc] at hcb
    cases hcb
    cases hg
  refine ⟨hdropped.task, hdropped.hand, fun v g hv e he hg => ?_, hdropped.loose⟩
  rw [State.setWorker_fibers, State.schedule_fibers, mem_scheduleNoLock] at he
  rcases he with he | ⟨t, ht, rfl⟩
  · exact hdropped.queue v g hv e he hg
  · -- nobody has the fiber as `cb_fiber` any more
    cases ht
    cases hg
    have hfits : b ≠ .idle := (hwf.worker w).fits b f _ hpc
    have hold : (s.workers v).cbFiber = some f := by
      by_cases hvw : v = w
      · subst hvw
        rw [State.setWorker_self] at hv
        exact cbFiber_of_dropped hv
      · rwa [State.setWorker_ne _ _ _ _ hvw] at hv
    cases b with
    | idle => exact absurd rfl hfits
    | task => exact absurd hold (h.loose w f (by rw [hpc]; rfl) v)
    | cb =>
      obtain rfl := hwf.cb_inj v w f hold ((hwf.worker w).cbBranch f _ hpc)
      rw [State.setWorker_self] at hv
      cases hv

end Spares

/-! ### Fibers of finished tasks -/

/-- A handle whose task has finished is one to a finished fiber, at most in the bookkeeping
    behind its last segment. -/
structure Dead (s : State K) (h : Handles) : Prop where
  out : ∀ f, h.stale f = true → h.out f = true
  finished : ∀ f, h.stale f = true → (s.heap f).state.finished = true
  ended : ∀ w b f ph, h.stale f = true → (s.workers w).pc = .on b f ph → ph.ended = true

/-- The bookkeeping for a finished task leaves its fiber finished. -/
theorem FiberMove.ended {b : Branch} {x x' : Fiber K} {ph ph' : Phase K}
    (hm : FiberMove b x ph x' ph') (hended : ph.ended = true) (hfin : x.state.finished = true) :
    x'.state.finished = true ∧ ph'.ended = true := by
  cases hm with
  | save p => exact ⟨hfin, rfl⟩
  | back _ => exact ⟨hfin, rfl⟩
  | isReady hx =>
    rw [hx] at hfin
    cases hfin
  | notReady _ => exact ⟨hfin, rfl⟩
  | notDone hx =>
    rw [hx] at hfin
    cases hfin
  | isDone _ _ => exact ⟨hfin, rfl⟩
  | _ => cases hended

section dead
variable {s s' : State K} {h h' : Handles}

/-- Worker `w` moves on, and no task with a handle ends. -/
theorem Dead.setWorker (hd : Dead s h) (hstale : h'.stale = h.stale)
    (hout : ∀ f, h.out f = true → h'.out f = true)
    (hheap : ∀ f, h.stale f = true → (s'.heap f).state.finished = true) {w : Nat} {y : Worker K}
    (hworkers : s'.workers = Function.update s.workers w y)
    (hended : ∀ b f ph, y.pc = .on b f ph → h.stale f = true → ph.ended = true) :
    Dead s' h' := by
  refine ⟨fun f hf => hout f (hd.out f (hstale ▸ hf)), fun f hf => hheap f (hstale ▸ hf),
    fun v b f ph hf hpc => ?_⟩
  rw [hstale] at hf
  by_cases hvw : v = w
  · rw [hvw, hworkers, Function.update_self] at hpc
    exact hended b f ph hpc hf
  · rw [hworkers, Function.update_of_ne hvw] at hpc
    exact hd.ended v b f ph hf hpc

/-- Worker `w` moves on, and another fiber than those of the finished tasks may change. -/
theorem Dead.setFiber (hd : Dead s h) {f : Nat} {x : Fiber K} (hf : h.stale f = false) :
    ∀ g, h.stale g = true → ((s.setFiber f x).heap g).state.finished = true := by
  intro g hg
  have hne : g ≠ f := by
    rintro rfl
    rw [hf] at hg
    cases hg
  rw [s.setFiber_ne f g x hne]
  exact hd.finished g hg

/-- The task that worker `w` executes ends. -/
theorem Dead.finish (hd : Dead s h) (howned : Owned (fun _ => True) () (fun p x _ => Consistent p x)
      s fun _ => ()) {w : Nat} {b : Branch} {f : Nat} {p : Point K} {x : Fiber K}
    (hpc : (s.workers w).pc = .on b f (.inside p)) (hx : x.state.finished = true)
    (hout : h'.out = h.out)
    (hstale : h'.stale = Function.update h.stale f (h.stale f || h.out f)) :
    Dead ((s.setFiber f x).setPC w (.on b f (.switchOut .done))) h' := by
  have hstale_ne : ∀ g, g ≠ f → h'.stale g = h.stale g := by
    intro g hg
    rw [hstale, Function.update_of_ne hg]
  refine ⟨fun g hg => ?_, fun g hg => ?_, fun v b' g ph hg hv => ?_⟩
  · by_cases hgf : g = f
    · subst hgf
      rw [hstale, Function.update_self, Bool.or_eq_true] at hg
      rw [hout]
      exact hg.elim (hd.out g) id
    · rw [hout]
      exact hd.out g (hstale_ne g hgf ▸ hg)
  · by_cases hgf : g = f
    · subst hgf
      rw [State.setPC_heap, State.setFiber_self]
      exact hx
    · rw [State.setPC_heap, State.setFiber_ne _ _ _ _ hgf]
      exact hd.finished g (hstale_ne g hgf ▸ hg)
  · by_cases hvw : v = w
    · rw [hvw, State.setPC_self] at hv
      cases hv
      rfl
    · rw [State.setPC_ne _ _ _ _ hvw, State.setFiber_workers] at hv
      have hgf : g ≠ f := by
        -- the fiber is in one hand only
        rintro rfl
        exact hvw (howned.inj v w g trivial (by rw [hv]; rfl) (by rw [hpc]; rfl))
      exact hd.ended v b' g ph (hstale_ne g hgf ▸ hg) hv

end dead

/-! ### The induction step -/

section steps
variable {s s' : State K} {h : Handles} {l : Label K}

/-- One case for each step: what a worker keeps for callbacks is queued only through a handle. -/
theorem Spares.move (hs : Spares s h.out) (hwf : WellFormed s) (hm : Move P s l s')
    (hfree : TakesFree s l) (hown : ∀ f ∈ s.recycles l, h.out f = false)
    (hhas : ∀ f ∈ l.scheduled, h.out f = true) : Spares s' (h.next s l).out := by
  have hext : Extends s s' := hm.extends
  have same : ∀ e ∈ s.fibers, e ∈ s.fibers := fun _ he => he
  -- the worker has no fiber in hand then
  have nothing : ∀ {Q : Nat → Prop} g, (none : Option Nat) = some g → Q g := by
    intro Q g hg
    cases hg
  cases hm with
  | fails hf =>
    have hout : (h.next s l).out = h.out := by
      cases hf with
      | yieldNotExec _ ha _ => rcases ha with rfl | rfl <;> rfl
      | _ => rfl
    rw [hout]
    exact ⟨hs.task, hs.hand, hs.queue, hs.loose⟩
  | owner hl hf =>
    have hout : (h.next s l).out = h.out := by rcases hl with ⟨_, rfl⟩ | rfl | rfl <;> rfl
    have hcb : ∀ w f, (s'.workers w).cbFiber = some f → (s.workers w).cbFiber = some f :=
      fun w f => hf.of_worker Worker.cbFiber (fun _ => rfl)
    rw [hout]
    refine ⟨fun f hf' => hext.isTask (hs.task f hf'), fun w f hw hf' => ?_, fun w f hw e he => ?_,
      fun w f hw v hv => ?_⟩
    · rcases hf.worker w with heq | ⟨-, tid, heq⟩
      · rw [heq] at hw ⊢
        exact hs.hand w f hw hf'
      · rw [heq] at hw
        cases hw
    · rw [hf.fibers] at he
      exact hs.queue w f (hcb w f hw) e he
    · exact hs.loose w f (hf.of_worker (fun x => x.pc.loose) (fun _ => rfl) hw) v (hcb v f hv)
  | @extSchedule fc thread _ =>
    refine hs.schedule thread fun f hf => ?_
    subst hf
    exact hhas f rfl
  | extNew => exact hs.alloc hwf rfl
  | @prelude w hpc =>
    exact hs.setWorker hext (w := w) same rfl (fun _ hg => hg) nothing
      (fun g ph _ _ hcb => by rw [hpc] at hcb; cases hcb)
  | @scanNone w hpc _ | @checkNone w hpc | @checkDone w f hpc _ | @checkCb w k hpc
  | @idleExit w f hpc _ _ | @idleEnter w f hpc _ _ | @prepareOld w k g hpc _ _ =>
    exact hs.setWorker hext (w := w) same rfl (fun _ hg => hg) nothing
      (fun g ph _ _ hcb => by rw [hpc] at hcb; cases hcb)
  | @checkFiber w f hpc _ =>
    refine hs.setWorker hext (w := w) same rfl (fun _ hg => hg) (fun g hg => .inl ?_)
      (fun g ph _ _ hcb => by rw [hpc] at hcb; cases hcb)
    rw [hpc]
    exact hg
  | @scanSome w e q hpc hq =>
    obtain ⟨pre, post, hfib, rfl, -, -⟩ := scanQueue_some hq
    refine hs.setWorker hext (w := w) (fun x hx => ?_) rfl (fun _ hg => hg)
      (fun g hg => .inr fun v hv => ?_) (fun g ph _ _ hcb => by rw [hpc] at hcb; cases hcb)
    · rw [hfib]
      rcases List.mem_append.mp hx with hx | hx
      · exact List.mem_append_left _ hx
      · exact List.mem_append_right _ (List.mem_cons_of_mem _ hx)
    · -- a queued `cb_fiber` is in use, and then it is not free
      have htask : e.task = .fiber g := by
        have hg : (PC.check (some e.task)).loose = some g := hg
        cases htask : e.task with
        | fiber f =>
          rw [htask] at hg
          cases hg
          rfl
        | cb k =>
          rw [htask] at hg
          cases hg
      have hout := hs.queue v g hv e (by simp [hfib]) htask
      obtain ⟨ph, hpv⟩ := hs.hand v g hv hout
      have htakes : s.takes w = some g := by
        obtain ⟨task, thread⟩ := e
        obtain rfl : task = .fiber g := htask
        simp [State.takes, hpc, hq]
      exact hwf.free (hfree g htakes) v (by rw [hpv]; rfl)
  | @prepareNew w k hpc _ =>
    have hnew : ∀ f, f < s.nfib → f ≠ s.nfib := fun f => Nat.ne_of_lt
    refine ⟨fun f hf => hext.isTask (hs.task f hf), fun v f hv hf => ?_,
      fun v f hv e he hef => ?_, fun v f hv u hu => ?_⟩
    · by_cases hvw : v = w
      · subst hvw
        rw [State.setWorker_self] at hv
        cases hv
        exact absurd rfl (hnew _ (hs.task _ hf).1)
      · rw [State.setWorker_ne _ _ _ _ hvw] at hv ⊢
        exact hs.hand v f hv hf
    · by_cases hvw : v = w
      · subst hvw
        rw [State.setWorker_self] at hv
        cases hv
        exact absurd rfl (hnew _ (hwf.queue e he _ hef).1)
      · rw [State.setWorker_ne _ _ _ _ hvw] at hv
        exact hs.queue v f hv e he hef
    · have hold : (s.workers v).pc.loose = some f := by
        by_cases hvw : v = w
        · rw [hvw, State.setWorker_self] at hv
          cases hv
        · rwa [State.setWorker_ne _ _ _ _ hvw] at hv
      by_cases huw : u = w
      · subst huw
        rw [State.setWorker_self] at hu
        cases hu
        exact absurd rfl (hnew _ (hwf.hand_lt (PC.hand_of_loose hold)))
      · rw [State.setWorker_ne _ _ _ _ huw] at hu
        exact hs.loose v f hold u hu
  | @fiber w b f ph x ph' hpc _ =>
    refine hs.setWorker hext (w := w) same rfl (fun _ hg => hg) (fun g hg => .inl ?_)
      (fun g ph₁ _ _ hcb => ?_)
    · rw [hpc]
      cases b <;> exact hg
    · rw [hpc] at hcb
      cases hcb
      exact ⟨ph', rfl⟩
  | @decrement w b f hpc _ =>
    refine hs.setWorker hext (w := w) same rfl (fun _ hg => hg) (fun g hg => .inl ?_)
      (fun g ph₁ _ _ hcb => ?_)
    · rw [hpc]
      cases b <;> exact hg
    · rw [hpc] at hcb
      cases hcb
      exact ⟨_, rfl⟩
  | requeue hpc => exact hs.requeue hwf hpc
  | @leave w b f hpc hb _ =>
    refine hs.setWorker hext (w := w) same rfl (fun _ hg => hg) nothing (fun g ph _ _ hcb => ?_)
    rw [hpc] at hcb
    cases hcb
    exact absurd rfl hb
  | @setHold w b f hpc =>
    refine hs.setWorker hext (w := w) same rfl (fun g => cbFiber_of_dropped) nothing
      (fun g ph hg _ hcb => ?_)
    rw [hpc] at hcb
    cases hcb
    cases hg
  | @recycle w b f hpc _ =>
    -- nobody else has a handle
    have hnone : h.out f = false := hown f (by simp [State.recycles, hpc])
    refine hs.setWorker hext (w := w) same rfl (fun _ hg => hg) nothing (fun g ph _ hout hcb => ?_)
    rw [hpc] at hcb
    cases hcb
    rw [hnone] at hout
    cases hout
  | @code w b f c c' a x ph' hpc _ hx _ =>
    have hout : (h.next s (.act w a)).out = h.out := by cases hx <;> rfl
    rw [hout]
    refine hs.setWorker hext (w := w) same rfl (fun _ hg => hg) (fun g hg => .inl ?_)
      (fun g ph₁ _ _ hcb => ?_)
    · rw [hpc]
      cases b <;> exact hg
    · rw [hpc] at hcb
      cases hcb
      exact ⟨ph', rfl⟩
  | @codeSchedule w b f c c' fc thread hpc _ _ =>
    have hbefore : Spares (s.schedule fc thread) h.out := by
      refine hs.schedule thread fun g hg => ?_
      subst hg
      exact hhas g rfl
    refine hbefore.setWorker (extends_of_eq rfl rfl) (w := w) (fun _ he => he) rfl
      (fun _ hg => hg) (fun g hg => .inl ?_) (fun g ph₁ _ _ hcb => ?_)
    · rw [State.schedule_workers, hpc]
      cases b <;> exact hg
    · rw [State.schedule_workers, hpc] at hcb
      cases hcb
      exact ⟨_, rfl⟩
  | @codeNew w b f c c' k hpc _ =>
    have hbefore : Spares (s.alloc (.new (.user k) false)) (Function.update h.out s.nfib true) :=
      hs.alloc hwf rfl
    refine hbefore.setWorker (extends_of_eq rfl rfl) (w := w) (fun _ he => he) rfl
      (fun _ hg => hg) (fun g hg => .inl ?_) (fun g ph₁ _ _ hcb => ?_)
    · rw [State.alloc_workers, hpc]
      cases b <;> exact hg
    · rw [State.alloc_workers, hpc] at hcb
      cases hcb
      exact ⟨_, rfl⟩

/-- Handles outlive their task only when it finishes, -/
theorem Handles.next_stale (hl : s.finishes l = none) : (h.next s l).stale = h.stale := by
  simp [Handles.next, hl]

/-- A worker finishes a task only in the `MainFunc` of a fiber without a function. -/
theorem Handles.next_work {w : Nat} (hpc : ∀ b f, (s.workers w).pc ≠ .on b f (.inside .entry)) :
    (h.next s (.work w)).stale = h.stale := by
  apply Handles.next_stale
  -- what is left is the other case of the definition
  simp only [State.finishes]

/-- and then those to its fiber do. -/
theorem Handles.next_stale_some {f : Nat} (hl : s.finishes l = some f) :
    (h.next s l).stale = Function.update h.stale f (h.stale f || h.out f) := by
  simp [Handles.next, hl]

/-- No task ends where an assertion fails. -/
theorem Fails.finishes {e : Fault} (hf : Fails s l e) : s.finishes l = none := by
  cases hf with
  | yieldNotExec _ ha _ => rcases ha with rfl | rfl <;> rfl
  | swapInExec hpc _ | reset hpc _ _ | recycle hpc _ | neverReach hpc => simp [State.finishes, hpc]

/-- Handles are not given up. -/
theorem Handles.next_out {f : Nat} (hf : h.out f = true) : (h.next s l).out f = true := by
  unfold Handles.next
  dsimp only
  split
  · rw [Function.update_apply]
    split
    · rfl
    · exact hf
  · rw [Function.update_apply]
    split
    · rfl
    · exact hf
  · exact hf

/-- No step begins anew in a fiber that a finished task has handles to. -/
theorem Dead.move (hd : Dead s h) (hs : Spares s h.out) (hwf : WellFormed s)
    (howned : Owned (fun _ => True) () (fun p x _ => Consistent p x) s fun _ => ())
    (hm : Move P s l s') (hown : ∀ f ∈ s.recycles l, h.out f = false) :
    Dead s' (h.next s l) := by
  have hout : ∀ f, h.out f = true → (h.next s l).out f = true := fun f => Handles.next_out
  -- the fiber in hand in a phase of another kind is not one of a finished task
  have alive : ∀ {w b f ph}, (s.workers w).pc = .on b f ph → ph.ended = false →
      h.stale f = false := by
    intro w b f ph hpc hended
    by_contra hstale
    have htrue := hd.ended w b f ph (by simpa using hstale) hpc
    rw [hended] at htrue
    cases htrue
  -- nor is one that nobody else knows
  have unknown : ∀ {f}, h.out f = false → h.stale f = false := by
    intro f hf
    by_contra hstale
    rw [hd.out f (by simpa using hstale)] at hf
    cases hf
  -- nor is an idle fiber
  have idle : ∀ {f}, (s.heap f).idle = true → h.stale f = false := by
    intro f hf
    apply unknown
    by_contra hout
    rw [(hs.task f (by simpa using hout)).2] at hf
    cases hf
  have alloc :
      ∀ (x : Fiber K) f, h.stale f = true → ((s.alloc x).heap f).state.finished = true := by
    intro x f hf
    rw [s.alloc_ne f x (Nat.ne_of_lt (hs.task f (hd.out f hf)).1)]
    exact hd.finished f hf
  cases hm with
  | fails hf =>
    have hstale : (h.next s l).stale = h.stale := Handles.next_stale hf.finishes
    refine ⟨fun f hf' => hout f (hd.out f (hstale ▸ hf')), fun f hf' => ?_,
      fun w b f ph hf' hpc => ?_⟩
    · exact hd.finished f (hstale ▸ hf')
    · exact hd.ended w b f ph (hstale ▸ hf') hpc
  | owner hl hf =>
    have hstale : (h.next s l).stale = h.stale := by rcases hl with ⟨_, rfl⟩ | rfl | rfl <;> rfl
    refine ⟨fun f hf' => hout f (hd.out f (hstale ▸ hf')), fun f hf' => ?_,
      fun w b f ph hf' hpc => ?_⟩
    · rw [hf.heap]
      exact hd.finished f (hstale ▸ hf')
    · rcases hf.worker w with heq | ⟨-, tid, heq⟩
      · rw [heq] at hpc
        exact hd.ended w b f ph (hstale ▸ hf') hpc
      · rw [heq] at hpc
        cases hpc
  | extSchedule _ => exact ⟨hd.out, hd.finished, hd.ended⟩
  | extNew => exact ⟨fun f hf => hout f (hd.out f hf), alloc _, hd.ended⟩
  | @prelude w hpc =>
    exact hd.setWorker (w := w) (Handles.next_work (by simp [hpc])) hout (alloc _) rfl
      nofun
  | @scanNone w hpc _ | @checkNone w hpc | @checkDone w f hpc _ | @checkCb w k hpc
  | @idleExit w f hpc _ _ | @scanSome w e q hpc _ | @requeue w b f hpc | @leave w b f hpc _ _ =>
    exact hd.setWorker (w := w) (Handles.next_work (by simp [hpc])) hout hd.finished
      rfl nofun
  | @checkFiber w f hpc hx =>
    refine hd.setWorker (w := w) (Handles.next_work (by simp [hpc])) hout hd.finished
      rfl fun b g ph hg hstale => ?_
    cases hg
    rw [hd.finished f hstale] at hx
    cases hx
  | @idleEnter w f hpc hf _ =>
    refine hd.setWorker (w := w) (Handles.next_work (by simp [hpc])) hout hd.finished
      rfl fun b g ph hg hstale => ?_
    cases hg
    rw [idle ((hwf.worker w).idle f hf).2] at hstale
    cases hstale
  | @prepareOld w k g hpc hg _ =>
    -- a `cb_fiber` that is not in use is known to nobody
    have hnone : h.out g = false := by
      by_contra htrue
      obtain ⟨ph, hpc'⟩ := hs.hand w g hg (by simpa using htrue)
      rw [hpc] at hpc'
      cases hpc'
    refine hd.setWorker (w := w) (Handles.next_work (by simp [hpc])) hout
      (hd.setFiber (unknown hnone)) rfl fun b f ph hf hstale => ?_
    cases hf
    rw [unknown hnone] at hstale
    cases hstale
  | @prepareNew w k hpc _ =>
    refine hd.setWorker (w := w) (Handles.next_work (by simp [hpc])) hout (alloc _)
      rfl fun b f ph hf hstale => ?_
    cases hf
    exact absurd (hs.task _ (hd.out _ hstale)).1 (Nat.lt_irrefl _)
  | @fiber w b f ph x ph' hpc hx =>
    cases hcall : s.finishes (.work w) with
    | none =>
      refine hd.setWorker (w := w) (Handles.next_stale hcall) hout (fun g hg => ?_) rfl
        fun b' g ph₁ hg hstale => ?_
      · by_cases hgf : g = f
        · subst hgf
          rw [State.setPC_heap, State.setFiber_self]
          exact (hx.ended (hd.ended w b g ph hg hpc) (hd.finished g hg)).1
        · rw [State.setPC_heap, State.setFiber_ne _ _ _ _ hgf]
          exact hd.finished g hg
      · cases hg
        exact (hx.ended (hd.ended w b f ph hstale hpc) (hd.finished f hstale)).2
    | some g =>
      -- an empty function
      cases hx with
      | callEmpty hcb =>
        obtain rfl : f = g := by simpa [State.finishes, hpc, hcb] using hcall
        exact hd.finish howned hpc rfl rfl (Handles.next_stale_some hcall)
      | call c hcb => simp [State.finishes, hpc, hcb] at hcall
      | _ => simp [State.finishes, hpc] at hcall
  | @decrement w b f hpc _ =>
    refine hd.setWorker (w := w) (Handles.next_work (by simp [hpc])) hout hd.finished
      rfl fun b' g ph hg _ => ?_
    cases hg
    rfl
  | @setHold w b f hpc =>
    exact hd.setWorker (w := w) (Handles.next_work (by simp [hpc])) hout
      (hd.setFiber (alive hpc rfl)) rfl nofun
  | @recycle w b f hpc _ =>
    have hnone : h.out f = false := hown f (by simp [State.recycles, hpc])
    exact hd.setWorker (w := w) (Handles.next_work (by simp [hpc])) hout
      (hd.setFiber (unknown hnone)) rfl nofun
  | @code w b f c c' a x ph' hpc _ hx _ =>
    have hlive : h.stale f = false := alive hpc rfl
    have stays : s.finishes (.act w a) = none →
        Dead ((s.setFiber f x).setPC w (.on b f ph')) (h.next s (.act w a)) := by
      intro hnone
      refine hd.setWorker (w := w) (Handles.next_stale hnone) hout (hd.setFiber hlive) rfl
        fun b' g ph hg hstale => ?_
      cases hg
      rw [hlive] at hstale
      cases hstale
    cases hx with
    | stopping => exact stays rfl
    | yieldToReady _ => exact stays rfl
    | yieldToHold _ => exact stays rfl
    | ret =>
      exact hd.finish howned hpc rfl rfl (Handles.next_stale_some (by simp [State.finishes, hpc]))
    | throw =>
      exact hd.finish howned hpc rfl rfl (Handles.next_stale_some (by simp [State.finishes, hpc]))
  | @codeSchedule w b f c c' fc thread hpc _ _ =>
    refine hd.setWorker (w := w) rfl hout hd.finished rfl fun b' g ph hg hstale => ?_
    cases hg
    rw [alive hpc rfl] at hstale
    cases hstale
  | @codeNew w b f c c' k hpc _ =>
    refine hd.setWorker (w := w) rfl hout (alloc _) rfl fun b' g ph hg hstale => ?_
    cases hg
    rw [alive hpc rfl] at hstale
    cases hstale

end steps

/-! ### Whole runs -/

section runs
variable {threads : Nat} {useCaller : Bool} {caller : Int}

/-- A step of the scheduler in the system with handles, -/
theorem handled_run {p p' : State K × Handles} {l : Label K}
    (hstep : (handled P threads useCaller caller).step p (.run l) = some p') :
    (∀ f ∈ l.scheduled, p.2.out f = true) ∧ step P p.1 l = some p'.1 ∧
      p'.2 = p.2.next p.1 l := by
  simp only [handled] at hstep
  split at hstep
  · next hhas =>
    obtain ⟨s', hs', rfl⟩ := Option.map_eq_some_iff.mp hstep
    exact ⟨hhas, hs', rfl⟩
  · cases hstep

/-- and a call of `GetThis()`. -/
theorem handled_getThis {p p' : State K × Handles} {w : Nat}
    (hstep : (handled P threads useCaller caller).step p (.getThis w) = some p') :
    ∃ f, p.1.current w = some f ∧ p'.1 = p.1 ∧ p'.2.stale = p.2.stale ∧
      p'.2.out = Function.update p.2.out f true := by
  obtain ⟨f, hf, rfl⟩ := Option.map_eq_some_iff.mp hstep
  exact ⟨f, hf, rfl, rfl, rfl⟩

/-- The handles only restrict what is scheduled. -/
theorem reachable_of_handled {p : State K × Handles}
    (h : ((handled P threads useCaller caller).restrict OwnCbFiber).Reachable p) :
    ((scheduler P threads useCaller caller).restrict TakesFree).Reachable p.1 := by
  induction h with
  | init => exact .init
  | step l _ hstep ih =>
    obtain ⟨hown, hstep⟩ := System.restrict_step.mp hstep
    cases l with
    | run l =>
      obtain ⟨-, hstep, -⟩ := handled_run hstep
      exact ih.step l (System.restrict_step.mpr ⟨hown.1, hstep⟩)
    | getThis w =>
      obtain ⟨f, -, hsame, -⟩ := handled_getThis hstep
      rwa [hsame]

/-- Where a worker executes a task, and which fiber that is. -/
theorem current_eq_some {s : State K} {w f : Nat} (h : s.current w = some f) :
    (∃ b c, (s.workers w).pc = .on b f (.inside (.body c))) ∧ (s.heap f).idle = false := by
  unfold State.current at h
  split at h
  · next b g k hpc =>
    split at h
    · cases h
    · next hidle =>
      cases h
      exact ⟨⟨b, _, hpc⟩, by simpa using hidle⟩
  · cases h

/-- `GetThis()` in a task: the fiber is the worker's `cb_fiber` in use, or nobody's. -/
theorem Spares.getThis {s : State K} {out : Nat → Bool} (h : Spares s out) (hwf : WellFormed s)
    {w f : Nat} (hf : s.current w = some f) : Spares s (Function.update out f true) := by
  obtain ⟨⟨b, c, hpc⟩, hidle⟩ := current_eq_some hf
  refine ⟨fun g hg => ?_, fun v g hv hg => ?_, fun v g hv e he heg => ?_, h.loose⟩
  · by_cases hgf : g = f
    · subst hgf
      exact ⟨(hwf.on_lt hpc).1, hidle⟩
    · rw [Function.update_of_ne hgf] at hg
      exact h.task g hg
  · by_cases hgf : g = f
    · subst hgf
      cases b with
      | idle =>
        rw [(hwf.on_lt hpc).2.mpr rfl] at hidle
        cases hidle
      | task => exact absurd hv (h.loose w g (by rw [hpc]; rfl) v)
      | cb =>
        obtain rfl := hwf.cb_inj v w g hv ((hwf.worker w).cbBranch g _ hpc)
        exact ⟨_, hpc⟩
    · rw [Function.update_of_ne hgf] at hg
      exact h.hand v g hv hg
  · rw [Function.update_apply]
    split
    · rfl
    · exact h.queue v g hv e he heg

/-- Both invariants hold in every run in which no worker reuses a `cb_fiber` that others have a
    handle to. -/
theorem dead_reachable :
    ∀ p, ((handled P threads useCaller caller).restrict OwnCbFiber).Reachable p →
    Spares p.1 p.2.out ∧ Dead p.1 p.2 := by
  refine System.invariant_of
    (J := fun p => ((scheduler P threads useCaller caller).restrict TakesFree).Reachable p.1)
    (fun p => reachable_of_handled) ?_ ?_
  · exact ⟨⟨nofun, nofun, nofun, nofun⟩, ⟨nofun, nofun, nofun⟩⟩
  · rintro p l p' hr ⟨hs, hd⟩ hstep
    have hwf : WellFormed p.1 := wellFormed_reachable hr.of_restrict
    obtain ⟨hown, hstep⟩ := System.restrict_step.mp hstep
    cases l with
    | run l =>
      obtain ⟨hhas, hstep, hnext⟩ := handled_run hstep
      have hm := (step_move hstep).2
      rw [hnext]
      exact ⟨hs.move hwf hm hown.1 hown.2 hhas, hd.move hs hwf (owned_reachable _ hr) hm hown.2⟩
    | getThis w =>
      obtain ⟨f, hf, hsame, hstale, hout⟩ := handled_getThis hstep
      rw [hsame, hout]
      refine ⟨hs.getThis hwf hf, fun g hg => ?_, fun g hg => ?_, fun v b g ph hg => ?_⟩
      · rw [hout, Function.update_apply]
        split
        · rfl
        · exact hd.out g (hstale ▸ hg)
      · exact hd.finished g (hstale ▸ hg)
      · exact hd.ended v b g ph (hstale ▸ hg)

/-- The assertions of `reset` and `swapIn` hold for the fibers of finished tasks. -/
theorem Dead.not_fails {s : State K} {h : Handles} (hd : Dead s h) (l : Label K) {f : Nat}
    (hf : h.stale f = true) : ¬ Fails s l (.resetState f) ∧ ¬ Fails s l (.swapInExec f) := by
  have hreset : (s.heap f).state.resettable = true := by
    have hfin := hd.finished f hf
    cases hst : (s.heap f).state with
    | term => rfl
    | except => rfl
    | _ => rw [hst] at hfin; cases hfin
  constructor
  · intro hfails
    cases hfails with
    | reset _ _ hx =>
      rw [hreset] at hx
      cases hx
    | recycle _ hx =>
      rw [hreset] at hx
      cases hx
  · intro hfails
    cases hfails with
    | swapInExec hpc _ => cases hd.ended _ _ f _ hf hpc

/-- For any number of workers, any tasks and any interleaving: as long as `run` recycles
    no fiber that somebody else has a handle to, and takes up no fiber that a worker has in
    hand, a handle of a finished task stays that of a finished fiber. -/
theorem handlesDone_reachable {p : State K × Handles}
    (h : ((handled P threads useCaller caller).restrict OwnCbFiber).Reachable p) :
    HandlesDone p := by
  have hd : Dead p.1 p.2 := (dead_reachable p h).2
  refine ⟨fun w f hf _ => hd.finished f hf, hd.ended, ?_⟩
  clear hd
  induction h with
  | init => nofun
  | @step p p' l hr hstep ih =>
    have hd : Dead p.1 p.2 := (dead_reachable p hr).2
    intro f hf
    obtain ⟨-, hstep⟩ := System.restrict_step.mp hstep
    cases l with
    | run l =>
      obtain ⟨-, hstep, hnext⟩ := handled_run hstep
      obtain ⟨hnone, hm⟩ := step_move hstep
      -- a step that fails an assertion ends no task
      have hbefore : ∀ {e}, Fails p.1 l e → p.2.stale f = true := by
        intro e hfails
        rwa [hnext, Handles.next_stale hfails.finishes] at hf
      constructor
      · intro hfault
        have hfails := hm.fault hnone hfault rfl
        exact (hd.not_fails l (hbefore hfails)).1 hfails
      · intro hfault
        have hfails := hm.fault hnone hfault rfl
        exact (hd.not_fails l (hbefore hfails)).2 hfails
    | getThis w =>
      obtain ⟨g, -, hsame, hstale, -⟩ := handled_getThis hstep
      rw [hsame]
      exact ih f (hstale ▸ hf)

end runs

/-- A callback hands on its handle, yields, and returns; then the handle is scheduled. -/
def keptHandle : List (HandleLabel Script) :=
  [.run (.start [7, 8]), .run (.ext (.schedule (some (.cb (.yieldToReady .ret))) (-1)))]
    ++ List.replicate 8 (.run (.work 0)) ++ [.getThis 0, .run (.act 0 .yieldToReady)]
    ++ List.replicate 10 (.run (.work 0)) ++ [.run (.act 0 .ret)]
    ++ List.replicate 4 (.run (.work 0)) ++ [.run (.ext (.schedule (some (.fiber 1)) (-1)))]
    ++ List.replicate 2 (.run (.work 1))

theorem handlesDone_reachable_kept :
    ∃ p, ((handled scripted 2 false 0).restrict OwnCbFiber).exec (.initial 2 false 0, .initial)
        keptHandle = some p ∧ p.2.stale 1 = true ∧
      (p.1.workers 1).pc = .check (some (.fiber 1)) ∧ HandlesDone p := by
  have hrun : (((handled scripted 2 false 0).restrict OwnCbFiber).exec
      (.initial 2 false 0, .initial) keptHandle).isSome := by decide
  exact ⟨_, (Option.some_get hrun).symm, rfl, rfl,
    handlesDone_reachable (System.reachable_get keptHandle hrun)⟩

/-- A callback hands on its handle and returns; then the handle is scheduled. -/
def recycledHandle : List (HandleLabel Script) :=
  [.run (.start [7, 8]), .run (.ext (.schedule (some (.cb .ret)) (-1)))]
    ++ List.replicate 8 (.run (.work 0)) ++ [.getThis 0, .run (.act 0 .ret)]
    ++ List.replicate 5 (.run (.work 0)) ++ [.run (.ext (.schedule (some (.fiber 1)) (-1)))]
    ++ List.replicate 6 (.run (.work 1))

/-- The fiber is back in `INIT` with `nullptr` for a callback: the other worker does not
    drop it but calls an empty function. -/
theorem not_handlesDone :
    ¬ ∀ p, (handled scripted 2 false 0).Reachable p → HandlesDone p := by
  intro h
  have hdone := h _ (System.reachable_get recycledHandle (by decide))
  have hended : (Phase.inside (Point.entry : Point Script)).ended = true :=
    hdone.notRun 1 .task 1 _ (by decide) (by decide)
  cases hended

end Gwn.Scheduler
