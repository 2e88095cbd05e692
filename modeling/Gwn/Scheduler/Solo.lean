import Gwn.Scheduler.Current
import Gwn.Scheduler.Drain

/-! # A scheduler with one worker

    With one worker, on a pool thread or on the caller's, nobody else takes tasks out of
    the queue: no fiber is in two hands, and when the worker looks at the queue it has
    none in hand. `InTurn` is what the tasks keep to: a fiber is scheduled while it is
    held or new, not when it is queued, being run or at its end. This module provides:

    - `InTurn`: the condition on the runs
    - `Single`: the worker there is, through all calls of `start` and `stop`
    - `Single.takesFree`: nobody has in hand what the worker takes up
    - `Solo`: the same worker on one thread
    - `Placed`: where the context of a task goes on, by its state -/

namespace Gwn.Scheduler

open LTS

variable {K : Type} {P : Prog K}

/-! ### The condition -/

/-- The fiber that a worker has taken up and not switched to yet. -/
def PC.taken : PC K → Option Nat
  | .check (some (.fiber f)) => some f
  | .on _ f .assertNotExec | .on _ f .setExec => some f
  | _ => none

/-- Fiber `f` is not queued, and is held, or new with a callback to call. No worker is
    about to run it, while `m_state` does not say so yet. -/
def State.Waits (s : State K) (f : Nat) : Prop :=
  f ∉ queuedFibers s.fibers ∧
    ((s.heap f).state = .hold ∨ (s.heap f).state = .init ∧ (s.heap f).cb.isSome) ∧
    ∀ w, w < s.nworkers → (s.workers w).pc.taken ≠ some f

instance (s : State K) (f : Nat) : Decidable (s.Waits f) :=
  inferInstanceAs
    (Decidable (_ ∧ (_ ∨ _) ∧ ∀ w, w < s.nworkers → (s.workers w).pc.taken ≠ some f))

/-- What may be scheduled: a callback, or a fiber that waits for it. -/
def State.MayQueue (s : State K) : Option (Task K) → Prop
  | some (.fiber f) => s.Waits f
  | _ => True

instance (s : State K) : (fc : Option (Task K)) → Decidable (s.MayQueue fc)
  | some (.fiber f) => inferInstanceAs (Decidable (s.Waits f))
  | some (.cb _) => .isTrue trivial
  | none => .isTrue trivial

/-- Tasks are scheduled in turn, for any thread or for the worker's, which is `tid`. -/
def InTurn (tid : Int) (s : State K) : Label K → Prop
  | .start tids => ∀ t ∈ tids, t = tid
  | .ext (.schedule fc thread) | .act _ (.schedule fc thread) =>
    (thread = -1 ∨ thread = tid) ∧ s.MayQueue fc
  | _ => True

instance (tid : Int) (s : State K) : (l : Label K) → Decidable (InTurn tid s l)
  | .start tids => inferInstanceAs (Decidable (∀ t ∈ tids, t = tid))
  | .ext (.schedule fc thread) | .act _ (.schedule fc thread) =>
    inferInstanceAs (Decidable ((thread = -1 ∨ thread = tid) ∧ s.MayQueue fc))
  | .stop | .ctl | .work _ => .isTrue trivial
  | .ext (.newFiber _ _) | .ext (.stopping _) | .ext .yieldToReady | .ext .yieldToHold
  | .ext .ret | .ext .throw => .isTrue trivial
  | .act _ (.newFiber _ _) | .act _ (.stopping _) | .act _ .yieldToReady | .act _ .yieldToHold
  | .act _ .ret | .act _ .throw => .isTrue trivial

/-! ### The worker -/

/-- The worker that was created last, which is the one there is. -/
def State.last (s : State K) : Worker K :=
  s.workers (s.nworkers - 1)

/-- Of all workers only the last has not left `run`, if any. -/
structure Single (s : State K) : Prop where
  others : ∀ w, w + 1 < s.nworkers → (s.workers w).pc = .exited
  waited : ∀ w, (s.workers w).pc ≠ .exited → w ∈ s.threads ∨ w ∈ s.ctl.waitsFor
  kind : s.rootFiber = none ∧ s.threadCount = 1 ∨ s.threadCount = 0 ∧ s.threads = []
  inRoot : ∀ w, s.ctl = .inRoot w → s.rootFiber ≠ none

theorem single_initial (useCaller : Bool) (tid : Int) :
    Single (.initial 1 useCaller tid : State K) where
  others w _ := rfl
  waited w h := absurd rfl h
  kind := by cases useCaller <;> simp [State.initial]
  inRoot w h := by cases h

/-- What a step that is not the owner's does to the workers. -/
inductive WorkersStep (s s' : State K) : Prop where
  | same : s'.workers = s.workers → WorkersStep s s'
  | one (w : Nat) (y : Worker K) : (s.workers w).pc ≠ .exited →
      s'.workers = Function.update s.workers w y → y.tid = (s.workers w).tid →
        y.pc ≠ .prelude →
      ((s.workers w).pc = .prelude ∧ y.idleFiber = some s.nfib ∨
        (s.workers w).pc ≠ .prelude ∧ y.idleFiber = (s.workers w).idleFiber) →
          WorkersStep s s'

/-- At most one worker moves, and stays on its thread. -/
theorem Move.workersStep {s s' : State K} {l : Label K} (hm : Move P s l s')
    (hl : l.notOwner = true) : WorkersStep s s' := by
  cases hm with
  | fails _ => exact .same rfl
  | owner hown _ => rcases hown with ⟨_, rfl⟩ | rfl | rfl <;> cases hl
  | extSchedule _ => exact .same rfl
  | extNew => exact .same rfl
  | prelude hpc => exact .one _ _ (by simp [hpc]) rfl rfl (by simp) (.inl ⟨hpc, rfl⟩)
  | scanNone hpc _ | scanSome hpc _ | checkNone hpc | checkDone hpc _ | checkFiber hpc _
  | checkCb hpc | prepareOld hpc _ _ | prepareNew hpc _ | idleExit hpc _ _ | idleEnter hpc _ _
  | fiber hpc _ | decrement hpc _ | requeue hpc | leave hpc _ _ | setHold hpc | recycle hpc _
  | code hpc _ _ _ | codeSchedule hpc _ _ | codeNew hpc _ =>
    exact .one _ _ (by simp [hpc]) rfl rfl (by simp) (.inr ⟨by simp [hpc], rfl⟩)

namespace Single

variable {s s' : State K}

/-- The worker that is in `run` is the last one. -/
theorem eq_last (h : Single s) (hwf : WellFormed s) {w : Nat} (hw : (s.workers w).pc ≠ .exited) :
    w + 1 = s.nworkers := by
  have hlt := hwf.lt_nworkers hw
  by_contra hne
  exact hw (h.others w (by omega))

/-- The worker that runs is the last one made. -/
theorem last_eq (h : Single s) (hwf : WellFormed s) {w : Nat} (hw : (s.workers w).pc ≠ .exited) :
    s.last = s.workers w := by
  have hlast := h.eq_last hwf hw
  have hpred : s.nworkers - 1 = w := by omega
  rw [State.last, hpred]

/-- A step of the worker, or of another thread. -/
theorem move {l : Label K} (h : Single s) (hwf : WellFormed s) (hm : Move P s l s')
    (hl : l.notOwner = true) : Single s' := by
  have howner := hm.ownerSame hl
  have hkind :
      s'.rootFiber = none ∧ s'.threadCount = 1 ∨ s'.threadCount = 0 ∧ s'.threads = [] := by
    rw [howner.rootFiber, howner.threadCount, howner.threads]
    exact h.kind
  have hin : ∀ w, s'.ctl = .inRoot w → s'.rootFiber ≠ none := by
    rw [howner.ctl, howner.rootFiber]
    exact h.inRoot
  cases hm.workersStep hl with
  | same hworkers =>
    refine ⟨fun w hw => ?_, fun w hw => ?_, hkind, hin⟩
    · rw [hworkers]
      exact h.others w (howner.nworkers ▸ hw)
    · rw [hworkers] at hw
      rw [howner.threads, howner.ctl]
      exact h.waited w hw
  | one w y hw hworkers htid hpre hidle =>
    have hlast := h.eq_last hwf hw
    refine ⟨fun v hv => ?_, fun v hv => ?_, hkind, hin⟩
    · rw [howner.nworkers] at hv
      have hvw : v ≠ w := by omega
      rw [hworkers, Function.update_of_ne hvw]
      exact h.others v hv
    · -- a worker that is in `run` now was there before
      have hold : (s.workers v).pc ≠ .exited := by
        by_cases hvw : v = w
        · rw [hvw]
          exact hw
        · rwa [hworkers, Function.update_of_ne hvw] at hv
      rw [howner.threads, howner.ctl]
      exact h.waited v hold

/-- The owner goes on without new workers; whoever it no longer waits for has left. -/
theorem goto (h : Single s) (hworkers : s'.workers = s.workers) (hn : s'.nworkers = s.nworkers)
    (hkind : s'.rootFiber = s.rootFiber ∨ s.rootFiber ≠ none)
    (hcount : s'.threadCount = s.threadCount)
    (hthreads : s'.threads = s.threads ∨ s'.threads = [])
    (hin : ∀ w, s'.ctl = .inRoot w → s'.rootFiber ≠ none)
    (hwait : ∀ w, w ∈ s.threads ∨ w ∈ s.ctl.waitsFor → (s.workers w).pc ≠ .exited →
      w ∈ s'.threads ∨ w ∈ s'.ctl.waitsFor) : Single s' := by
  refine ⟨fun w hw => ?_, fun w hw => ?_, ?_, hin⟩
  · rw [hworkers]
    exact h.others w (hn ▸ hw)
  · rw [hworkers] at hw
    exact hwait w (h.waited w hw) hw
  · rw [hcount]
    rcases h.kind with ⟨hnone, hone⟩ | ⟨hzero, hnil⟩
    · rcases hkind with hsame | hsome
      · exact .inl ⟨hsame.trans hnone, hone⟩
      · exact absurd hnone hsome
    · refine .inr ⟨hzero, ?_⟩
      rcases hthreads with hsame | hempty
      · exact hsame.trans hnil
      · exact hempty

/-- With nobody to wait for, every worker has left. -/
theorem all_exited (h : Single s) (hthreads : s.threads = []) (hctl : s.ctl.waitsFor = []) :
    ∀ w, (s.workers w).pc = .exited := by
  intro w
  by_contra hw
  have hmem := h.waited w hw
  rw [hthreads, hctl] at hmem
  rcases hmem with hmem | hmem <;> cases hmem

/-- A worker is added when all have left. -/
theorem add {tid : Int} (hexit : ∀ w, (s.workers w).pc = .exited)
    (hworkers : s'.workers = Function.update s.workers s.nworkers (.fresh tid))
    (hn : s'.nworkers = s.nworkers + 1)
    (hkind : s'.rootFiber = none ∧ s'.threadCount = 1 ∨ s'.threadCount = 0 ∧ s'.threads = [])
    (hin : ∀ w, s'.ctl = .inRoot w → s'.rootFiber ≠ none)
    (hwait : s.nworkers ∈ s'.threads ∨ s.nworkers ∈ s'.ctl.waitsFor) : Single s' := by
  have hold : ∀ w, w ≠ s.nworkers → (s'.workers w).pc = .exited := by
    intro w hw
    rw [hworkers, Function.update_of_ne hw]
    exact hexit w
  refine ⟨fun w hw => hold w (by omega), fun w hw => ?_, hkind, hin⟩
  have hnew : w = s.nworkers := by
    by_contra hne
    exact hw (hold w hne)
  rw [hnew]
  exact hwait

theorem start {tids : List Int} (h : Single s) (hstart : startStep s tids = some s') :
    Single s' := by
  obtain ⟨hctl, hlength, hmove⟩ := startStep_move hstart
  cases hmove with
  | running _ => exact h
  | fails _ _ => exact h.goto rfl rfl (.inl rfl) rfl (.inl rfl) h.inRoot fun w hw _ => hw
  | starts _ hthreads =>
    have hexit := h.all_exited hthreads (by rw [hctl]; rfl)
    rcases h.kind with ⟨hnone, hone⟩ | ⟨hzero, hnil⟩
    · rw [hone] at hlength
      obtain ⟨t, rfl⟩ := List.length_eq_one_iff.mp hlength
      refine @add K _ _ t hexit ?_ rfl (.inl ⟨hnone, hone⟩) h.inRoot (.inl ?_)
      · funext w
        by_cases hw : w = s.nworkers
        · simp [State.started, hw]
        · rw [Function.update_of_ne hw]
          exact State.started_old (by simp only [List.length_singleton]; omega)
      · simp [State.started]
    · -- nothing to start on the caller's thread
      rw [hzero] at hlength
      obtain rfl := List.length_eq_zero_iff.mp hlength
      refine h.goto ?_ rfl (.inl rfl) rfl (.inr rfl) h.inRoot fun w _ hw => absurd (hexit w) hw
      funext w
      exact State.started_old (by simp only [List.length_nil]; omega)

theorem stop (h : Single s) (hstop : stopStep s = some s') : Single s' := by
  obtain ⟨hctl, rfl⟩ := stopStep_eq hstop
  refine h.goto rfl rfl (.inl rfl) rfl (.inl rfl) nofun fun w hw _ => ?_
  rw [hctl] at hw
  exact hw

/-- One case for each place of the owner inside `stop`. -/
theorem ctl (h : Single s) (hstep : ctlStep s = some s') : Single s' := by
  -- most steps leave the workers and what is waited for alone
  have stay : ∀ {c : Ctl} {flag : Bool}, s.ctl.waitsFor = [] → (∀ w, c ≠ .inRoot w) →
      Single { s with ctl := c, stoppingFlag := flag } := by
    intro c flag hnobody hc
    refine h.goto rfl rfl (.inl rfl) rfl (.inl rfl) (fun w hw => absurd hw (hc w)) fun w hw _ => ?_
    rw [hnobody] at hw
    rcases hw with hw | hw
    · exact .inl hw
    · cases hw
  cases ctlStep_move hstep with
  | callExec _ _ => exact h.goto rfl rfl (.inl rfl) rfl (.inl rfl) h.inRoot fun w hw _ => hw
  | neverReach _ _ _ => exact h.goto rfl rfl (.inl rfl) rfl (.inl rfl) h.inRoot fun w hw _ => hw
  | call hctl hroot =>
    rcases h.kind with ⟨hnone, -⟩ | ⟨hzero, hnil⟩
    · rw [hnone] at hroot
      cases hroot
    · have hexit := h.all_exited hnil (by rw [hctl]; rfl)
      exact add hexit rfl rfl (.inr ⟨hzero, hnil⟩) nofun (.inr List.mem_cons_self)
  | returned v hctl hexit =>
    refine h.goto rfl rfl (.inr (h.inRoot v hctl)) rfl (.inl rfl) nofun fun w hw hlive => ?_
    rw [hctl] at hw
    rcases hw with hw | hw
    · exact .inl hw
    · rw [List.mem_singleton.mp hw] at hlive
      exact absurd hexit hlive
  | swapThreads hctl =>
    -- from here it waits for those that were in `m_threads`
    refine h.goto rfl rfl (.inl rfl) rfl (.inr rfl) nofun fun w hw _ => ?_
    rw [hctl] at hw
    rcases hw with hw | hw
    · exact .inr hw
    · cases hw
  | join v vs hctl hexit =>
    refine h.goto rfl rfl (.inl rfl) rfl (.inl rfl) nofun fun w hw hlive => ?_
    rw [hctl] at hw
    rcases hw with hw | hw
    · exact .inl hw
    · rcases List.mem_cons.mp hw with rfl | hw
      · exact absurd hexit hlive
      · exact .inr hw
  | single hctl _ | notSingle hctl _ | singleSet hctl | stopping hctl _ | notStopping hctl _
  | setStopping hctl | toCall hctl _ _ | noCall hctl _ | joined hctl =>
    exact stay (by rw [hctl]; rfl) nofun

theorem step {l : Label K} (h : Single s) (hwf : WellFormed s)
    (hstep : Scheduler.step P s l = some s') : Single s' := by
  cases step_by hstep with
  | other hl _ => exact h.move hwf (step_move hstep).2 hl
  | start hstart => exact h.start hstart
  | stop hstop => exact h.stop hstop
  | ctl hctl => exact h.ctl hctl

/-- A fiber that the worker does not have in hand is in nobody's. -/
theorem free (h : Single s) (hwf : WellFormed s) {w f : Nat} (hw : (s.workers w).pc ≠ .exited)
    (hf : (s.workers w).pc.hand ≠ some f) (v : Nat) : (s.workers v).pc.hand ≠ some f := by
  by_cases hv : (s.workers v).pc = .exited
  · rw [hv]
    exact nofun
  · have hlast := h.eq_last hwf hw
    have hlast' := h.eq_last hwf hv
    obtain rfl : v = w := by omega
    exact hf

/-- What the worker takes up nobody has in hand. -/
theorem takesFree (h : Single s) (hwf : WellFormed s) (l : Label K) : TakesFree s l := by
  cases l with
  | work w =>
    intro f hf v _
    have hf : s.takes w = some f := hf
    unfold State.takes at hf
    split at hf
    · next hpc => exact h.free hwf (w := w) (by simp [hpc]) (by simp [hpc, PC.hand]) v
    · next k hpc => exact h.free hwf (w := w) (by simp [hpc]) (by simp [hpc, PC.hand]) v
    · cases hf
  | _ => trivial

end Single

/-! ### The same worker each time -/

/-- Every worker there is runs on thread `tid`, and has an idle fiber once it is in the loop. -/
structure Solo (tid : Int) (s : State K) : Prop where
  others : ∀ w, w + 1 < s.nworkers → (s.workers w).pc = .exited
  waited : ∀ w, (s.workers w).pc ≠ .exited → w ∈ s.threads ∨ w ∈ s.ctl.waitsFor
  kind : s.rootFiber = none ∧ s.threadCount = 1 ∨
    s.threadCount = 0 ∧ s.threads = [] ∧ s.rootThread = tid
  inRoot : ∀ w, s.ctl = .inRoot w → s.rootFiber ≠ none
  tid : ∀ w, (s.workers w).pc ≠ .exited → (s.workers w).tid = tid
  idle : ∀ w, (s.workers w).pc ≠ .exited → (s.workers w).pc ≠ .prelude →
    (s.workers w).idleFiber.isSome

theorem solo_initial (useCaller : Bool) (tid : Int) :
    Solo tid (.initial 1 useCaller tid : State K) where
  others w _ := rfl
  waited w h := absurd rfl h
  kind := by cases useCaller <;> simp [State.initial]
  inRoot w h := by cases h
  tid w h := absurd rfl h
  idle w h := absurd rfl h

/-- The workers that `start` adds are on the threads it is given. -/
theorem startStep_workers {s s' : State K} {tids : List Int}
    (h : startStep s tids = some s') (w : Nat) :
    s'.workers w = s.workers w ∨ ∃ t ∈ tids, s'.workers w = .fresh t := by
  cases (startStep_move h).2.2 with
  | running _ => exact .inl rfl
  | fails _ _ => exact .inl rfl
  | starts _ _ =>
    by_cases hw : s.nworkers ≤ w ∧ w < s.nworkers + tids.length
    · exact .inr (State.started_new hw.1 hw.2)
    · exact .inl (State.started_old (by omega))

/-- `stop` adds the caller's thread, for the root fiber. -/
theorem ctlStep_workers {s s' : State K} (h : ctlStep s = some s') (w : Nat) :
    s'.workers w = s.workers w ∨ s.rootFiber ≠ none ∧ s'.workers w = .fresh s.rootThread := by
  cases ctlStep_move h with
  | call _ hroot =>
    by_cases hw : w = s.nworkers
    · refine .inr ⟨by simp [hroot], ?_⟩
      rw [hw]
      exact s.setWorker_self _ _
    · exact .inl (s.setWorker_ne _ _ _ hw)
  | _ => exact .inl rfl

/-- `m_rootThread` and `m_threadCount` are set by the constructor. -/
theorem step_fixed {s s' : State K} {l : Label K} (hstep : step P s l = some s') :
    s'.rootThread = s.rootThread ∧ s'.threadCount = s.threadCount := by
  cases step_by hstep with
  | other hl hsame => exact ⟨(step_move hstep).2.rootThread hl, hsame.threadCount⟩
  | start hstart => cases (startStep_move hstart).2.2 <;> exact ⟨rfl, rfl⟩
  | stop hstop =>
    obtain ⟨-, rfl⟩ := stopStep_eq hstop
    exact ⟨rfl, rfl⟩
  | ctl hctl => cases ctlStep_move hctl <;> exact ⟨rfl, rfl⟩

namespace Solo

variable {tid : Int} {s s' : State K}

/-- Being alone on a known thread is being alone. -/
theorem single (h : Solo tid s) : Single s where
  others := h.others
  waited := h.waited
  kind := h.kind.imp_right fun hroot => ⟨hroot.1, hroot.2.1⟩
  inRoot := h.inRoot

/-- A worker that is in `run` was there before, or is new, on this thread. -/
theorem worker {l : Label K} (h : Solo tid s) (hturn : InTurn tid s l)
    (hstep : step P s l = some s') (w : Nat) (hw : (s'.workers w).pc ≠ .exited) :
    (s'.workers w).tid = tid ∧
      ((s'.workers w).pc ≠ .prelude → (s'.workers w).idleFiber.isSome) := by
  have same : s'.workers w = s.workers w → (s'.workers w).tid = tid ∧
      ((s'.workers w).pc ≠ .prelude → (s'.workers w).idleFiber.isSome) := by
    intro hsame
    rw [hsame] at hw ⊢
    exact ⟨h.tid w hw, h.idle w hw⟩
  have fresh : ∀ t, t = tid → s'.workers w = .fresh t → (s'.workers w).tid = tid ∧
      ((s'.workers w).pc ≠ .prelude → (s'.workers w).idleFiber.isSome) := by
    intro t ht hnew
    rw [hnew]
    exact ⟨ht, fun hpre => absurd rfl hpre⟩
  cases step_by hstep with
  | other hl _ =>
    cases (step_move hstep).2.workersStep hl with
    | same hworkers => exact same (congrFun hworkers w)
    | one v y hv hworkers htid hpre hidle =>
      by_cases hvw : w = v
      · rw [hvw, hworkers, Function.update_self, htid]
        refine ⟨h.tid v hv, fun _ => ?_⟩
        rcases hidle with ⟨-, hidle⟩ | ⟨hpre', hidle⟩
        · -- it has just made its idle fiber
          rw [hidle]
          rfl
        · rw [hidle]
          exact h.idle v hv hpre'
      · exact same (by rw [hworkers, Function.update_of_ne hvw])
  | start hstart =>
    rcases startStep_workers hstart w with hsame | ⟨t, ht, hnew⟩
    · exact same hsame
    · exact fresh t (hturn t ht) hnew
  | stop hstop =>
    obtain ⟨-, rfl⟩ := stopStep_eq hstop
    exact same rfl
  | ctl hctl =>
    rcases ctlStep_workers hctl w with hsame | ⟨hroot, hnew⟩
    · exact same hsame
    · rcases h.kind with ⟨hnone, -⟩ | ⟨-, -, htid⟩
      · exact absurd hnone hroot
      · exact fresh s.rootThread htid hnew

theorem step {l : Label K} (h : Solo tid s) (hwf : WellFormed s) (hturn : InTurn tid s l)
    (hstep : step P s l = some s') : Solo tid s' := by
  have hsingle := h.single.step hwf hstep
  obtain ⟨hroot, hcount⟩ := step_fixed hstep
  refine ⟨hsingle.others, hsingle.waited, ?_, hsingle.inRoot, fun w hw =>
    (h.worker hturn hstep w hw).1,
    fun w hw => (h.worker hturn hstep w hw).2⟩
  rcases hsingle.kind with hpool | ⟨hzero, hnil⟩
  · exact .inl hpool
  · rcases h.kind with ⟨-, hone⟩ | ⟨-, -, htid⟩
    · omega
    · exact .inr ⟨hzero, hnil, hroot.trans htid⟩

end Solo

/-! ### Where tasks go on -/

/-- The code at `p`, where a context is or goes on; behind the end there is none. -/
def Fiber.codeAt (x : Fiber K) : Point K → Option (Code K)
  | .entry => x.cb
  | .body c => some c
  | .done => none

/-- A context that has been left at `p` goes on in the code, unless the fiber has ended. -/
def Fiber.LeftAt (x : Fiber K) (p : Point K) : Prop :=
  if x.state.finished then p = .done else ∃ c, p = .body c

/-- The context of a task, by where it stands in `run`. -/
def Placed : Pos K → Fiber K → Prop
  | .free, x => x.state = .init ∧ x.ctx = .entry ∨ x.state ≠ .init ∧ x.LeftAt x.ctx
  | .checked, x => (x.state = .init ∧ x.ctx = .entry ∨ x.state ≠ .init ∧ x.LeftAt x.ctx) ∧
    (x.codeAt x.ctx).isSome
  | .on b ph, x => b ≠ .idle ∧ match ph with
    | .assertNotExec | .setExec | .switchIn => (x.codeAt x.ctx).isSome
    | .inside p => (x.codeAt p).isSome
    | .yielding _ _ => True
    | .switchOut p => x.LeftAt p
    | .returned | .testReady | .requeue | .testDone | .recycle => x.LeftAt x.ctx
    | .setHold => ∃ c, x.ctx = .body c

/-- A fiber that was left in its code goes on there, -/
theorem Fiber.LeftAt.body {x : Fiber K} {p : Point K} (h : x.LeftAt p)
    (hx : x.state.finished = false) : ∃ c, p = .body c := by
  simpa [LeftAt, hx] using h

/-- and one that has ended stays at its end. -/
theorem Fiber.LeftAt.done {x : Fiber K} {p : Point K} (h : x.LeftAt p)
    (hx : x.state.finished = true) : p = .done := by
  simpa [LeftAt, hx] using h

theorem Placed.fiberMove {b : Branch} {x x' : Fiber K} {ph ph' : Phase K}
    (h : Placed (.on b ph) x) (hcons : Consistent (.on b ph) x) (hm : FiberMove b x ph x' ph') :
    Placed (.on b ph') x' := by
  obtain ⟨hb, h⟩ := h
  refine ⟨hb, ?_⟩
  cases hm with
  | assertNotExec _ => exact h
  | setExec => exact h
  | switchIn => exact h
  | call c _ => rfl
  | callEmpty hcb =>
    -- a task that is resumed has a callback to call
    have hcb' : x.cb.isSome := h
    rw [hcb] at hcb'
    cases hcb'
  | yield st c =>
    show Fiber.LeftAt { x with state := st } (.body c)
    rcases hcons.2.2 with rfl | rfl <;> exact ⟨c, rfl⟩
  | save p => exact h
  | back hidle => exact absurd hidle hb
  | isReady _ => exact h
  | notReady _ => exact h
  | notDone hx => exact Fiber.LeftAt.body h hx
  | isDone _ _ => exact h

/-- What the worker takes up can go on. -/
def Fiber.CanGoOn (x : Fiber K) : Prop :=
  (x.codeAt x.ctx).isSome

/-- Where tasks stand, as a local fact. -/
theorem local_placed (P : Prog K) : Local P (fun _ _ => True) Fiber.CanGoOn () (fun _ _ => ())
    fun p x _ => Consistent p x ∧ (x.idle = false → Placed p x) := by
  have hcons := local_consistent P (fun _ _ => True) Fiber.CanGoOn () fun _ _ => ()
  exact {
    new k := ⟨hcons.new k, fun _ => .inl ⟨rfl, rfl⟩⟩
    newIdle := ⟨hcons.newIdle, nofun⟩
    schedule p x g h := h
    take x g h hidle hx hripe :=
      ⟨hcons.take x g h.1 hidle hx hripe, fun _ => ⟨h.2 hidle, hripe⟩⟩
    checkDone x g h hx := ⟨hcons.checkDone x g h.1 hx, fun hidle => (h.2 hidle).1⟩
    checkFiber x g h hx :=
      ⟨hcons.checkFiber x g h.1 hx, fun hidle => ⟨nofun, (h.2 hidle).2⟩⟩
    prepareNew k := ⟨hcons.prepareNew k, fun _ => ⟨nofun, rfl⟩⟩
    prepareOld x k g h hidle hx :=
      ⟨hcons.prepareOld x k g h.1 hidle hx, fun _ => ⟨nofun, rfl⟩⟩
    idleEnter x g h hidle hx :=
      ⟨hcons.idleEnter x g h.1 hidle hx, fun h' => absurd (hidle.symm.trans h') nofun⟩
    fiber b x ph x' ph' g h hm :=
      ⟨hcons.fiber b x ph x' ph' g h.1 hm, fun hidle => (h.2 (hm.idle_eq ▸ hidle)).fiberMove h.1 hm⟩
    decrement b x g h hb := ⟨hcons.decrement b x g h.1 hb, h.2⟩
    requeue b x g h := by
      refine ⟨hcons.requeue b x g h.1, fun hidle => .inr ⟨?_, (h.2 hidle).2⟩⟩
      rw [h.1.2]
      exact nofun
    leave b x g h hb hx := by
      refine ⟨hcons.leave b x g h.1 hb hx, fun hidle => .inr ⟨?_, (h.2 hidle).2⟩⟩
      intro hinit
      rw [hinit] at hx
      cases hx
    setHold b x g h :=
      ⟨hcons.setHold b x g h.1, fun hidle => .inr ⟨nofun, (h.2 hidle).2⟩⟩
    recycle b x g h hx := ⟨hcons.recycle b x g h.1 hx, fun _ => .inl ⟨rfl, rfl⟩⟩
    goOn b c c' a x g h hc ha :=
      ⟨hcons.goOn b c c' a x g h.1 hc ha, fun hidle => ⟨(h.2 hidle).1, rfl⟩⟩
    yieldToReady b c c' x g h hc ha hx :=
      ⟨hcons.yieldToReady b c c' x g h.1 hc ha hx, fun hidle => ⟨(h.2 hidle).1, trivial⟩⟩
    yieldToHold b c c' x g h hc ha hx :=
      ⟨hcons.yieldToHold b c c' x g h.1 hc ha hx, fun hidle => ⟨(h.2 hidle).1, trivial⟩⟩
    ret b c c' x g h hc ha :=
      ⟨hcons.ret b c c' x g h.1 hc ha, fun hidle => ⟨(h.2 hidle).1, rfl⟩⟩
    throw b c c' x g h hc ha :=
      ⟨hcons.throw b c c' x g h.1 hc ha, fun hidle => ⟨(h.2 hidle).1, rfl⟩⟩ }

end Gwn.Scheduler
