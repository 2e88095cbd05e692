import Gwn.Scheduler.ActiveCount
import Gwn.Scheduler.Idle

/-! # Shutdown at quiescence

    `stopping()` infers from an empty queue and a zero counter that nothing is
    left to do. `run` takes a fiber that has yielded out of the counter before it
    puts it back into the queue, so in between the fiber is in neither: another
    worker's `stopping()` answers true and that worker leaves (`not_shutDown`).
    When no evaluation of `stopping()` falls into this window, a true answer means
    quiescence, and for ever (`shutdown_quiescent`). -/

namespace Gwn.Scheduler

open LTS

variable {K : Type} {P : Prog K}

/-! ### The window -/

/-- Worker `w` has done its `--m_activeThreadCount` for a fiber that has yielded,
    and not yet the `schedule` or `setState(HOLD)` that follows. -/
def State.Settling (s : State K) (w : Nat) : Prop :=
  match (s.workers w).pc with
  | .on .idle _ _ => False
  | .on _ _ .requeue => True
  | .on _ f .testReady | .on _ f .testDone | .on _ f .setHold => (s.heap f).state.finished = false
  | _ => False

instance (s : State K) (w : Nat) : Decidable (s.Settling w) := by
  unfold State.Settling
  split <;> infer_instance

/-- No evaluation of `stopping()` after the call of `stop` falls into a worker's window. -/
def Unobserved (s : State K) (l : Label K) : Prop :=
  Evaluates s l → s.autoStop = true → ∀ w, w < s.nworkers → ¬ s.Settling w

instance (s : State K) (l : Label K) : Decidable (Unobserved s l) :=
  inferInstanceAs (Decidable (Evaluates s l → s.autoStop = true →
    ∀ w, w < s.nworkers → ¬ s.Settling w))

/-- Once `stop` is called, nobody outside the scheduler's own fibers schedules. -/
def NoLateSchedule (s : State K) : Label K → Prop
  | .ext (.schedule _ _) => s.autoStop = false
  | _ => True

instance (s : State K) : (l : Label K) → Decidable (NoLateSchedule s l)
  | .ext (.schedule _ _) => inferInstanceAs (Decidable (s.autoStop = false))
  | .ext (.newFiber _ _) | .ext (.stopping _) => .isTrue trivial
  | .ext .yieldToReady | .ext .yieldToHold | .ext .ret | .ext .throw => .isTrue trivial
  | .start _ | .stop | .ctl | .work _ | .act _ _ => .isTrue trivial

/-! ### Quiescence -/

/-- Worker `w` holds a task it has dequeued and neither finished nor put back. -/
def State.HoldsTask (s : State K) (w : Nat) : Prop :=
  match (s.workers w).pc with
  | .check (some (.fiber f)) => (s.heap f).state.finished = false
  | .check (some (.cb _)) | .prepare _ => True
  | .on .idle _ _ | .on _ _ .recycle => False
  | .on _ _ .requeue => True
  | .on _ f _ => (s.heap f).state.finished = false
  | _ => False

theorem State.HoldsTask.cases {s : State K} {w : Nat} (h : s.HoldsTask w) :
    (s.workers w).pc.busy = true ∨ s.Settling w := by
  unfold HoldsTask at h
  unfold Settling
  match hpc : (s.workers w).pc, h with
  | .check (some _), _ => exact .inl rfl
  | .prepare _, _ => exact .inl rfl
  | .on .task f ph, h => cases ph <;> first | exact .inl rfl | exact .inr h
  | .on .cb f ph, h => cases ph <;> first | exact .inl rfl | exact .inr h

/-- Nothing is queued, nobody is busy, and no bookkeeping under way will requeue. -/
structure Quiet (s : State K) : Prop where
  queue : s.fibers = []
  busy : ∀ w, (s.workers w).pc.busy = false
  requeue : ∀ w b f, (s.workers w).pc ≠ .on b f .requeue
  testReady : ∀ w b f, (s.workers w).pc = .on b f .testReady → (s.heap f).state ≠ .ready

/-- A true answer outside the window. -/
theorem quiet_of_stopping {s : State K} (hwf : WellFormed s)
    (hle : busyCount s ≤ s.activeThreadCount) (hstop : s.stopping = true)
    (hsettled : ∀ w, w < s.nworkers → ¬ s.Settling w) : Quiet s := by
  simp only [State.stopping, Bool.and_eq_true, List.isEmpty_iff, beq_iff_eq] at hstop
  obtain ⟨⟨-, hqueue⟩, hactive⟩ := hstop
  -- a worker that does not exist is neither busy nor settling
  have hlt : ∀ {w}, (s.workers w).pc ≠ .exited → w < s.nworkers := hwf.lt_nworkers
  have hbusy : ∀ w, (s.workers w).pc.busy = false := by
    intro w
    by_contra hne
    have htrue : (s.workers w).pc.busy = true := by simpa using hne
    have := busy_le_busyCount hwf htrue
    omega
  have hsettling : ∀ w, ¬ s.Settling w := by
    intro w hw
    refine hsettled w (hlt ?_) hw
    intro hpc
    rw [State.Settling, hpc] at hw
    exact hw
  refine ⟨hqueue, hbusy, fun w b f hpc => ?_, fun w b f hpc hready => ?_⟩
  · have hfits : b ≠ .idle := (hwf.worker w).fits b f _ hpc
    apply hsettling w
    rw [State.Settling, hpc]
    cases b <;> trivial
  · have hfits : b ≠ .idle := (hwf.worker w).fits b f _ hpc
    apply hsettling w
    rw [State.Settling, hpc]
    cases b with
    | idle => exact hfits rfl
    | task => show (s.heap f).state.finished = false; rw [hready]; rfl
    | cb => show (s.heap f).state.finished = false; rw [hready]; rfl

/-- One worker moves: it does not become busy or a requeuer, and no fiber becomes `READY`. -/
theorem Quiet.setWorker {s t : State K} {w : Nat} {y : Worker K} (h : Quiet s)
    (hwf : WellFormed s) (hqueue : t.fibers = s.fibers)
    (hworkers : t.workers = Function.update s.workers w y)
    (hstate : ∀ f, f < s.nfib → (t.heap f).state = .ready → (s.heap f).state = .ready)
    (hbusy : y.pc.busy = false) (hrequeue : ∀ b f, y.pc ≠ .on b f .requeue)
    (htest : ∀ b f, y.pc ≠ .on b f .testReady) : Quiet t := by
  have hself : t.workers w = y := by rw [hworkers, Function.update_self]
  have hne : ∀ v, v ≠ w → t.workers v = s.workers v := by
    intro v hv
    rw [hworkers, Function.update_of_ne hv]
  refine ⟨hqueue.trans h.queue, fun v => ?_, fun v b f => ?_, fun v b f hpc hready => ?_⟩
  · by_cases hv : v = w
    · rw [hv, hself]
      exact hbusy
    · rw [hne v hv]
      exact h.busy v
  · by_cases hv : v = w
    · rw [hv, hself]
      exact hrequeue b f
    · rw [hne v hv]
      exact h.requeue v b f
  · by_cases hv : v = w
    · rw [hv, hself] at hpc
      exact htest b f hpc
    · rw [hne v hv] at hpc
      have hlt : f < s.nfib := (hwf.on_lt hpc).1
      exact h.testReady v b f hpc (hstate f hlt hready)

/-- A fiber changes, but does not become `READY`. -/
theorem ready_of_setFiber {s : State K} {f : Nat} {x : Fiber K}
    (hx : x.state = .ready → (s.heap f).state = .ready) (g : Nat)
    (hready : ((s.setFiber f x).heap g).state = .ready) : (s.heap g).state = .ready := by
  by_cases hg : g = f
  · rw [hg, s.setFiber_self] at hready
    rw [hg]
    exact hx hready
  · rwa [s.setFiber_ne f g x hg] at hready

/-- A worker that is not busy runs nothing but its idle fiber. -/
theorem Quiet.idle_of_inSwapIn {s : State K} (h : Quiet s) {w : Nat} {b : Branch} {f : Nat}
    {ph : Phase K} (hpc : (s.workers w).pc = .on b f ph) (hph : ph.inSwapIn = true) :
    b = .idle := by
  have hbusy := h.busy w
  rw [hpc] at hbusy
  cases b with
  | idle => rfl
  | task => exact absurd (hph.symm.trans hbusy) nofun
  | cb => exact absurd (hph.symm.trans hbusy) nofun

/-- Neither a worker nor the code in the idle fibers ends the quiescence. -/
theorem Quiet.move {a : Bool} {s s' : State K} {l : Label K} (h : Quiet s) (hwf : WellFormed s)
    (hidle : IdleOk a s) (hlate : NoLateSchedule s l) (hauto : s.autoStop = true)
    (hm : Move P s l s') : Quiet s' := by
  -- the fiber in the idle branch, with what is known of it
  have at_idle :
      ∀ {w f ph}, (s.workers w).pc = .on .idle f ph → IdleAt a (.on .idle ph) (s.heap f) := by
    intro w f ph hpc
    have hk : (s.heap f).idle = true := (hwf.on_lt hpc).2.mpr rfl
    exact hidle.on w .idle f ph hk hpc hk
  have idle_only : ∀ {w}, (s.workers w).pc.busy = true → False := by
    intro w hbusy
    exact absurd (hbusy.symm.trans (h.busy w)) nofun
  have keep : ∀ f, f < s.nfib → (s.heap f).state = .ready → (s.heap f).state = .ready :=
    fun _ _ h => h
  have alloc : ∀ {x : Fiber K} {f}, f < s.nfib → ((s.alloc x).heap f).state = .ready →
      (s.heap f).state = .ready := by
    intro x f hf hready
    rwa [s.alloc_ne f x (Nat.ne_of_lt hf)] at hready
  cases hm with
  | fails _ => exact ⟨h.queue, h.busy, h.requeue, h.testReady⟩
  | owner _ hf =>
    have hold : ∀ v, (s'.workers v).pc = (s.workers v).pc ∨ (s'.workers v).pc = .prelude := by
      intro v
      rcases hf.worker v with hv | ⟨-, tid, hv⟩ <;> rw [hv]
      · exact .inl rfl
      · exact .inr rfl
    refine ⟨hf.fibers.trans h.queue, fun v => ?_, fun v b f => ?_, fun v b f hpc => ?_⟩
    · rcases hold v with hv | hv <;> rw [hv]
      · exact h.busy v
      · rfl
    · rcases hold v with hv | hv <;> rw [hv]
      · exact h.requeue v b f
      · nofun
    · rw [hf.heap]
      rcases hold v with hv | hv <;> rw [hv] at hpc
      · exact h.testReady v b f hpc
      · cases hpc
  | extSchedule _ => exact absurd (hauto.symm.trans hlate) nofun
  | extNew =>
    refine ⟨h.queue, h.busy, h.requeue, fun w b f hpc hready => ?_⟩
    exact h.testReady w b f hpc (alloc (hwf.on_lt (w := w) hpc).1 hready)
  | @prelude w hpc =>
    exact h.setWorker (w := w) hwf rfl rfl (fun f hf => alloc hf) rfl nofun nofun
  | @scanNone w _ _ => exact h.setWorker (w := w) hwf rfl rfl keep rfl nofun nofun
  | @scanSome w e q _ hq =>
    rw [h.queue] at hq
    cases hq
  | @checkNone w _ => exact h.setWorker (w := w) hwf rfl rfl keep rfl nofun nofun
  | checkDone hpc _ => exact (idle_only (by rw [hpc]; rfl)).elim
  | checkFiber hpc _ => exact (idle_only (by rw [hpc]; rfl)).elim
  | checkCb hpc => exact (idle_only (by rw [hpc]; rfl)).elim
  | prepareOld hpc _ _ => exact (idle_only (by rw [hpc]; rfl)).elim
  | prepareNew hpc _ => exact (idle_only (by rw [hpc]; rfl)).elim
  | @idleExit w f _ _ _ => exact h.setWorker (w := w) hwf rfl rfl keep rfl nofun nofun
  | @idleEnter w f _ _ _ => exact h.setWorker (w := w) hwf rfl rfl keep rfl nofun nofun
  | @fiber w b f ph x ph' hpc hx =>
    by_cases hin : ph.inSwapIn = true
    · -- only the idle fiber is in its `swapIn`, and it does not yield `READY`
      obtain rfl := h.idle_of_inSwapIn hpc hin
      have hat := at_idle hpc
      have hstate : x.state = .ready → (s.heap f).state = .ready := by
        cases hx with
        | setExec => nofun
        | callEmpty _ => nofun
        | yield st c =>
          obtain ⟨rfl, -⟩ := hat.2
          nofun
        | _ => exact id
      refine h.setWorker (w := w) hwf rfl rfl (fun g _ => ready_of_setFiber hstate g) rfl ?_ ?_
      · rintro b g ⟨⟩
        cases hx
        cases hin
      · rintro b g ⟨⟩
        cases hx
    · -- the bookkeeping after `swapIn`
      have hrest :
          x = s.heap f ∧ ph'.inSwapIn = false ∧ ph' ≠ .requeue ∧ ph' ≠ .testReady := by
        cases hx with
        | isReady hready => exact absurd hready (h.testReady w b f hpc)
        | notReady _ => exact ⟨rfl, rfl, nofun, nofun⟩
        | notDone _ => exact ⟨rfl, rfl, nofun, nofun⟩
        | isDone _ _ => exact ⟨rfl, rfl, nofun, nofun⟩
        | _ => exact absurd rfl hin
      obtain ⟨rfl, hout, hne₁, hne₂⟩ := hrest
      rw [s.setFiber_heap]
      refine h.setWorker (w := w) hwf rfl rfl keep ?_ ?_ ?_
      · show (b != .idle && ph'.inSwapIn) = false
        rw [hout, Bool.and_false]
      · rintro b' g ⟨⟩
        exact hne₁ rfl
      · rintro b' g ⟨⟩
        exact hne₂ rfl
  | @decrement w b f hpc hb => exact absurd (h.idle_of_inSwapIn hpc rfl) hb
  | @requeue w b f hpc => exact absurd hpc (h.requeue w b f)
  | @leave w b f _ _ _ => exact h.setWorker (w := w) hwf rfl rfl keep rfl nofun nofun
  | @setHold w b f _ =>
    have hhold : ({ s.heap f with state := .hold } : Fiber K).state = .ready →
        (s.heap f).state = .ready := nofun
    exact h.setWorker (w := w) hwf rfl rfl (fun g _ => ready_of_setFiber hhold g) rfl nofun nofun
  | @recycle w b f _ _ =>
    have hinit : ((s.heap f).reset none).state = .ready → (s.heap f).state = .ready := nofun
    exact h.setWorker (w := w) hwf rfl rfl (fun g _ => ready_of_setFiber hinit g) rfl nofun nofun
  | @code w b f c c' act x ph' hpc hc hx _ =>
    obtain rfl := h.idle_of_inSwapIn hpc rfl
    have hin := hx.inSwapIn
    have hstate : x.state = .ready → (s.heap f).state = .ready := by
      cases hx with
      | ret => nofun
      | throw => nofun
      | _ => exact id
    refine h.setWorker (w := w) hwf rfl rfl (fun g _ => ready_of_setFiber hstate g) rfl ?_ ?_
    · rintro b g ⟨⟩
      cases hin
    · rintro b g ⟨⟩
      cases hin
  | @codeSchedule w b f c c' fc thread hpc hc _ =>
    obtain rfl := h.idle_of_inSwapIn hpc rfl
    obtain ⟨hnext, -⟩ := (at_idle hpc).resume hc nofun
    rcases hnext with ⟨-, hact⟩ | ⟨-, hact⟩ | ⟨-, -, hact | hact⟩ <;> cases hact
  | @codeNew w b f c c' k hpc hc =>
    obtain rfl := h.idle_of_inSwapIn hpc rfl
    obtain ⟨hnext, -⟩ := (at_idle hpc).resume hc nofun
    rcases hnext with ⟨-, hact⟩ | ⟨-, hact⟩ | ⟨-, -, hact | hact⟩ <;> cases hact

/-! ### Shutdown -/

/-- The scheduler with the history whether `stopping()` has answered true. -/
def withAnswer (sys : System (State K) (Label K)) : System (State K × Bool) (Label K) :=
  sys.withHistory false answer

structure ShutDown (s : State K) (answered : Bool) : Prop where
  /-- Once `stopping()` has answered true, nothing is queued, dequeued or run. -/
  quiet : answered = true → s.fibers = [] ∧ ∀ w, (s.workers w).pc.busy = false
  /-- A worker that has left `run` leaves nothing behind, pinned or not. -/
  left : ∀ w, w < s.nworkers → (s.workers w).pc = .exited → s.fibers = []

/-- What the run so far has established. -/
structure ShutInv (s : State K) (answered : Bool) : Prop where
  idle : IdleOk answered s
  quiet : answered = true → s.autoStop = true ∧ Quiet s
  left : ∀ w, w < s.nworkers → (s.workers w).pc = .exited → answered = true

theorem ShutInv.step {s s' : State K} {a : Bool} {l : Label K} (h : ShutInv s a)
    (hP : P.idle = .idleTest) (hwf : WellFormed s) (hle : busyCount s ≤ s.activeThreadCount)
    (hlate : NoLateSchedule s l) (hunobs : Unobserved s l) (hstep : step P s l = some s') :
    ShutInv s' (answer a s l) := by
  have hm := (step_move hstep).2
  refine ⟨h.idle.step hP hwf hstep, fun ha => ?_, fun w hlt hpc => ?_⟩
  · -- the answer was given before, or in this step
    have hquiet : s.autoStop = true ∧ Quiet s := by
      simp only [answer, Bool.or_eq_true, Bool.and_eq_true, decide_eq_true_eq] at ha
      rcases ha with ha | ⟨heval, hstop⟩
      · exact h.quiet ha
      · have hauto : s.autoStop = true := by
          simp only [State.stopping, Bool.and_eq_true] at hstop
          exact hstop.1.1.1
        exact ⟨hauto, quiet_of_stopping hwf hle hstop (hunobs heval hauto)⟩
    exact ⟨autoStop_persist hstep hquiet.1, hquiet.2.move hwf h.idle hlate hquiet.1 hm⟩
  · have ha : a = true := by
      rcases hm.exited hlt hpc with ⟨hlt', hpc'⟩ | ⟨f, hpc', hf, hst⟩
      · exact h.left w hlt' hpc'
      · exact h.idle.answered hwf (by rw [hpc']; rfl) hf hst
    simp [answer, ha]

/-- The runs in which nobody outside schedules after `stop`, as the scheduler expects. -/
def closing (P : Prog K) (threads : Nat) (useCaller : Bool) (caller : Int) :
    System (State K) (Label K) :=
  (scheduler P threads useCaller caller).restrict NoLateSchedule

theorem shutInv_reachable {threads : Nat} {useCaller : Bool} {caller : Int}
    (hP : P.idle = .idleTest) :
    ∀ p, (withAnswer ((closing P threads useCaller caller).restrict Unobserved)).Reachable p →
      ShutInv p.1 p.2 := by
  refine System.invariant_of (J := fun p => (scheduler P threads useCaller caller).Reachable p.1)
    ?_ ?_ ?_
  · intro p hp
    exact hp.of_history.of_restrict.of_restrict
  · refine ⟨Owned.initial threads useCaller caller, nofun, fun w hw => ?_⟩
    exact absurd hw (Nat.not_lt_zero w)
  · rintro ⟨s, a⟩ l ⟨s', a'⟩ hr hs hstep
    obtain ⟨hstep, rfl⟩ := System.withHistory_step.mp hstep
    obtain ⟨hunobs, hstep⟩ := System.restrict_step.mp hstep
    obtain ⟨hlate, hstep⟩ := System.restrict_step.mp hstep
    exact ShutInv.step hs hP (wellFormed_reachable hr) (busyCount_le_active hr) hlate hunobs hstep

/-- For any number of workers, any code and any interleaving in which nobody
    outside schedules after `stop`: as long as no evaluation of `stopping()` falls
    into the window of a worker, at every evaluation that returns true nothing is
    queued and nobody holds a task, and from then on nothing is queued or run. -/
theorem shutdown_quiescent {threads : Nat} {useCaller : Bool} {caller : Int}
    (hP : P.idle = .idleTest) {p : State K × Bool}
    (h : (withAnswer ((closing P threads useCaller caller).restrict Unobserved)).Reachable p) :
    ShutDown p.1 p.2 ∧ ∀ l p',
      (withAnswer ((closing P threads useCaller caller).restrict Unobserved)).step p l = some p' →
      Evaluates p.1 l → p.1.stopping = true → p.1.fibers = [] ∧
        ∀ w, ¬ p.1.HoldsTask w := by
  have hr : (scheduler P threads useCaller caller).Reachable p.1 :=
    h.of_history.of_restrict.of_restrict
  have hinv := shutInv_reachable hP p h
  refine ⟨⟨fun ha => ?_, fun w hlt hpc => ?_⟩, fun l p' hstep heval hstop => ?_⟩
  · exact ⟨(hinv.quiet ha).2.queue, (hinv.quiet ha).2.busy⟩
  · exact (hinv.quiet (hinv.left w hlt hpc)).2.queue
  · obtain ⟨hstep, -⟩ := System.withHistory_step.mp hstep
    obtain ⟨hunobs, -⟩ := System.restrict_step.mp hstep
    have hauto : p.1.autoStop = true := by
      simp only [State.stopping, Bool.and_eq_true] at hstop
      exact hstop.1.1.1
    have hwf := wellFormed_reachable hr
    have hsettled := hunobs heval hauto
    have hquiet := quiet_of_stopping hwf (busyCount_le_active hr) hstop hsettled
    refine ⟨hquiet.queue, fun w hw => ?_⟩
    rcases hw.cases with hbusy | hsettling
    · rw [hquiet.busy w] at hbusy
      cases hbusy
    · have hlt : w < p.1.nworkers := by
        apply hwf.lt_nworkers
        intro hpc
        rw [State.HoldsTask, hpc] at hw
        exact hw
      exact hsettled w hlt hsettling

/-- `stop` is called while worker 0 runs a callback and worker 1 is about to test
    `stopping()` in its idle fiber; the callback yields `READY`, and worker 0 has
    decremented the counter. -/
def yieldedInStop : List (Label Script) :=
  [.start [7, 8], .ext (.schedule (some (.cb (.yieldToReady .ret))) (-1))] ++
    List.replicate 8 (.work 0) ++ [.stop, .ctl, .ctl] ++ List.replicate 8 (.work 1) ++
    [.act 0 .yieldToReady, .work 0, .work 0, .work 0]

/-- `stopping()` answers true, and then the callback's fiber is requeued. -/
theorem not_shutDown :
    ¬ ∀ p, (withAnswer (closing scripted 2 false 0)).Reachable p → ShutDown p.1 p.2 := by
  intro h
  have hdown :=
    h _ (System.reachable_get (yieldedInStop ++ [.act 1 (.stopping true), .work 0, .work 0])
    (by decide))
  have hqueue := (hdown.quiet (by decide)).1
  exact absurd hqueue nofun

/-- Worker 0 requeues the fiber and runs it to its end before worker 1 tests. -/
def finishedInStop : List (Label Script) :=
  yieldedInStop ++ List.replicate 7 (.work 0) ++ [.act 0 .ret] ++ List.replicate 4 (.work 0) ++
    [.act 1 (.stopping true), .act 1 .ret] ++ List.replicate 6 (.work 1)

theorem shutdown_quiescent_finished :
    ∃ p, (withAnswer ((closing scripted 2 false 0).restrict Unobserved)).exec
        (.initial 2 false 0, false) finishedInStop = some p ∧
      (p.1.workers 1).pc = .exited ∧ ShutDown p.1 p.2 := by
  have hrun : ((withAnswer ((closing scripted 2 false 0).restrict Unobserved)).exec
      (.initial 2 false 0, false) finishedInStop).isSome := by decide
  exact ⟨_, (Option.some_get hrun).symm, rfl,
    (shutdown_quiescent (P := scripted) rfl (System.reachable_get finishedInStop hrun)).1⟩

end Gwn.Scheduler
