import Gwn.Scheduler.ActiveCount
import Gwn.Scheduler.Drain
import Gwn.Scheduler.Finished

/-! # Orderly runs fail no assertion

    fiber.cc and scheduler.cc assert that a fiber is not entered in `EXEC`, that it yields
    in `EXEC`, that only a finished or a new fiber is reset, that nothing comes behind the
    end of a fiber, and that `start` finds no threads. With callbacks that keep to
    themselves, started and stopped once, none of these assertions can fail, whatever the
    interleaving (`no_fault`). This module provides:

    - `Staged`: how far the owner has got, by its flags and its root fiber
    - `Spare`: the `cb_fiber` of a worker is in `INIT` when it is not in use
    - `Equipped`: a worker in its loop has its `idle_fiber`
    - `Flawless`: all that holds throughout orderly runs, kept by each step -/

namespace Gwn.Scheduler

open LTS

section owner
variable {K : Type} {P : Prog K}

/-! ### The owner -/

/-- The root fiber has not been called yet. -/
def Ctl.early : Ctl → Bool
  | .single | .singleSet | .singleTest | .setStopping | .rootTest | .callRoot => true
  | _ => false

/-- `m_stopping` has been set. -/
def Ctl.late : Ctl → Bool
  | .rootTest | .callRoot | .inRoot _ | .swapThreads | .join _ => true
  | _ => false

/-- How far the owner is, and what it has set on its way: the root fiber is as the
    constructor left it until it is called, and `m_stopping` is set before that. -/
structure Staged (s : State K) : Prop where
  rootFiber : s.autoStop = false ∨ s.ctl.early = true →
    s.rootFiber = none ∨ s.rootFiber = some .init
  called : s.ctl = .callRoot → s.rootFiber.isSome = true
  /-- Before `start` there are no threads. -/
  threads : s.autoStop = false → s.stoppingFlag = true → s.threads = []
  flag : s.ctl.late = true → s.stoppingFlag = true

/-- A scheduler with `use_caller` has a root fiber in `INIT`, others have none. -/
theorem staged_initial (threads : Nat) (useCaller : Bool) (caller : Int) :
    Staged (.initial threads useCaller caller : State K) where
  rootFiber _ := by
    cases useCaller with
    | false => exact .inl rfl
    | true => exact .inr rfl
  called h := by cases h
  threads _ _ := rfl
  flag h := by cases h

/-- The owner goes on to `c` inside `stop`. -/
theorem Staged.goto {s : State K} (h : Staged s) (hauto : s.autoStop = true) (c : Ctl) (flag : Bool)
    (hearly : c.early = true → s.ctl.early = true)
    (hcalled : c = .callRoot → s.rootFiber.isSome = true)
    (hflag : c.late = true → flag = true) :
    Staged { s with ctl := c, stoppingFlag := flag } where
  rootFiber hc := by
    rcases hc with hc | hc
    · exact absurd (hauto.symm.trans hc) nofun
    · exact h.rootFiber (.inr (hearly hc))
  called := hcalled
  threads ha := absurd (hauto.symm.trans ha) nofun
  flag := hflag

/-- One case for each place of the owner inside `stop`. -/
theorem Staged.ctl {s s' : State K} (h : Staged s) (hauto : s.autoStop = true)
    (hstep : ctlStep s = some s') : Staged s' ∧ (s.fault = none → s'.fault = none) := by
  cases ctlStep_move hstep with
  | single hctl _ => exact ⟨h.goto hauto .singleSet _ (by rw [hctl]; exact id) nofun nofun, id⟩
  | notSingle hctl _ =>
    exact ⟨h.goto hauto .setStopping _ (by rw [hctl]; exact id) nofun nofun, id⟩
  | singleSet hctl =>
    exact ⟨h.goto hauto .singleTest _ (by rw [hctl]; exact id) nofun nofun, id⟩
  | stopping hctl _ => exact ⟨h.goto hauto .user _ nofun nofun nofun, id⟩
  | notStopping hctl _ =>
    exact ⟨h.goto hauto .setStopping _ (by rw [hctl]; exact id) nofun nofun, id⟩
  | setStopping hctl =>
    exact ⟨h.goto hauto .rootTest _ (by rw [hctl]; exact id) nofun fun _ => rfl, id⟩
  | toCall hctl hroot _ =>
    have hflag := h.flag (by rw [hctl]; rfl)
    exact ⟨h.goto hauto .callRoot _ (by rw [hctl]; exact id)
      (fun _ => hroot) fun _ => hflag, id⟩
  | noCall hctl _ =>
    have hflag := h.flag (by rw [hctl]; rfl)
    exact ⟨h.goto hauto .swapThreads _ nofun nofun fun _ => hflag, id⟩
  | callExec hctl hexec =>
    -- the root fiber is called once
    have hroot := h.rootFiber (.inr (by rw [hctl]; rfl))
    rw [hexec] at hroot
    rcases hroot with hroot | hroot <;> cases hroot
  | call hctl _ =>
    have hflag := h.flag (by rw [hctl]; rfl)
    refine ⟨⟨fun hc => ?_, nofun, fun ha => ?_, fun _ => hflag⟩, id⟩
    · rcases hc with hc | hc
      · exact absurd (hauto.symm.trans hc) nofun
      · cases hc
    · exact absurd (hauto.symm.trans ha) nofun
  | neverReach hctl _ hinit =>
    -- nor has it ended before the call
    have hroot := h.rootFiber (.inr (by rw [hctl]; rfl))
    have hsome := h.called hctl
    rcases hroot with hroot | hroot
    · rw [hroot] at hsome
      cases hsome
    · exact absurd hroot hinit
  | returned w hctl _ =>
    have hflag := h.flag (by rw [hctl]; rfl)
    refine ⟨⟨fun hc => ?_, nofun, fun ha => ?_, fun _ => hflag⟩, id⟩
    · rcases hc with hc | hc
      · exact absurd (hauto.symm.trans hc) nofun
      · cases hc
    · exact absurd (hauto.symm.trans ha) nofun
  | swapThreads hctl =>
    have hflag := h.flag (by rw [hctl]; rfl)
    have hgoto := h.goto hauto (.join s.threads) s.stoppingFlag nofun nofun fun _ => hflag
    exact ⟨⟨hgoto.rootFiber, nofun, fun _ _ => rfl, hgoto.flag⟩, id⟩
  | joined hctl => exact ⟨h.goto hauto .user _ nofun nofun nofun, id⟩
  | join w ws hctl _ =>
    have hflag := h.flag (by rw [hctl]; rfl)
    exact ⟨h.goto hauto (.join ws) _ nofun nofun fun _ => hflag, id⟩

/-! ### Idle fibers and `cb_fiber`s -/

/-- A worker in its loop has its `idle_fiber`. -/
def Equipped (s : State K) : Prop :=
  ∀ w, (s.workers w).pc = .prelude ∨ (s.workers w).pc = .exited ∨
    (s.workers w).idleFiber.isSome = true

/-- Only the prelude makes an idle fiber, and it is never dropped. -/
theorem Equipped.move {s s' : State K} {l : Label K} (h : Equipped s) (hm : Move P s l s') :
    Equipped s' := by
  -- the worker is past its prelude and keeps its idle fiber
  have keep : ∀ {w : Nat} {y : Worker K}, (s.workers w).pc ≠ .prelude →
      (s.workers w).pc ≠ .exited →
      s'.workers = Function.update s.workers w y → y.idleFiber = (s.workers w).idleFiber →
      Equipped s' := by
    intro w y hprelude hexited hworkers hy v
    by_cases hv : v = w
    · rw [hv, hworkers, Function.update_self, hy]
      rcases h w with hpc | hpc | hsome
      · exact absurd hpc hprelude
      · exact absurd hpc hexited
      · exact .inr (.inr hsome)
    · rw [hworkers, Function.update_of_ne hv]
      exact h v
  cases hm with
  | fails _ => exact h
  | owner _ hf =>
    intro w
    rcases hf.worker w with hsame | ⟨-, tid, hnew⟩
    · rw [hsame]
      exact h w
    · rw [hnew]
      exact .inl rfl
  | extSchedule _ => exact h
  | extNew => exact h
  | @prelude w hpc =>
    intro v
    by_cases hv : v = w
    · rw [hv, State.setWorker_self]
      exact .inr (.inr rfl)
    · rw [State.setWorker_ne _ _ _ _ hv, State.alloc_workers]
      exact h v
  | scanNone hpc _ | scanSome hpc _ | checkNone hpc | checkDone hpc _ | checkFiber hpc _
  | checkCb hpc | prepareOld hpc _ _ | prepareNew hpc _ | idleExit hpc _ _ | idleEnter hpc _ _
  | fiber hpc _ | decrement hpc _ | requeue hpc | leave hpc _ _ | setHold hpc | recycle hpc _
  | code hpc _ _ _ | codeSchedule hpc _ _ | codeNew hpc _ =>
    exact keep (by rw [hpc]; nofun) (by rw [hpc]; nofun) rfl rfl

end owner

section callbacks
variable {C : Type} {prog : C → Body C} {s s' : State (Cont C)} {owner : Nat → Option Nat}
  {l : Label (Cont C)}

/-- The `cb_fiber` that a worker keeps is in `INIT` when it is not in its hand. -/
def Spare (s : State (Cont C)) : Prop :=
  ∀ w g, (s.workers w).cbFiber = some g → (s.workers w).pc.hand ≠ some g →
    (s.heap g).state = .init

/-- Nobody else keeps the fiber that a worker has in hand. -/
theorem Employing.cbFiber_ne_hand (h : Employing s owner) {v w f : Nat} (hv : v ≠ w)
    (hf : (s.workers w).pc.hand = some f) : (s.workers v).cbFiber ≠ some f := by
  intro hcb
  cases hpc : (s.workers w).pc with
  | check ft =>
    rw [hpc] at hf
    cases ft with
    | none => cases hf
    | some t =>
      cases t with
      | cb k => cases hf
      | fiber g =>
        cases hf
        exact h.tidy.loose w _ (by rw [hpc]; rfl) v hcb
  | on b g ph =>
    rw [hpc] at hf
    cases hf
    cases b with
    | task => exact h.tidy.loose w _ (by rw [hpc]; rfl) v hcb
    | cb => exact hv (h.wf.cb_inj v w _ hcb ((h.wf.worker w).cbBranch _ ph hpc))
    | idle =>
      have hidle := ((h.wf.worker w).idle _ ((h.wf.worker w).idleBranch _ ph hpc)).2
      have htask := ((h.wf.worker v).cb _ hcb).2
      exact absurd (hidle.symm.trans htask) nofun
  | _ =>
    rw [hpc] at hf
    cases hf

/-- Worker `w` moves to `y` and changes at most the fiber `f`, which nobody else keeps. -/
theorem Spare.setWorker (h : Spare s) {t : State (Cont C)} {w f : Nat} {y : Worker (Cont C)}
    (hworkers : t.workers = Function.update s.workers w y)
    (hheap : ∀ g, g ≠ f → t.heap g = s.heap g)
    (hf : ∀ v, v ≠ w → (s.workers v).cbFiber ≠ some f)
    (hy : ∀ g, y.cbFiber = some g → y.pc.hand ≠ some g → (t.heap g).state = .init) :
    Spare t := by
  intro v g hcb hhand
  by_cases hv : v = w
  · rw [hv, hworkers, Function.update_self] at hcb hhand
    exact hy g hcb hhand
  · rw [hworkers, Function.update_of_ne hv] at hcb hhand
    have hne : g ≠ f := by
      rintro rfl
      exact hf v hv hcb
    rw [hheap g hne]
    exact h v g hcb hhand

/-- Worker `w` moves on with what it has, and no fiber changes. -/
theorem Spare.keep (h : Spare s) {t : State (Cont C)} {w : Nat} (pc : PC (Cont C))
    (hworkers : t.workers = Function.update s.workers w { s.workers w with pc := pc })
    (hheap : t.heap = s.heap)
    (hhand : ∀ g, (s.workers w).cbFiber = some g → (s.workers w).pc.hand = some g →
      pc.hand = some g) : Spare t := by
  intro v g hcb hne
  rw [hheap]
  by_cases hv : v = w
  · rw [hv, hworkers, Function.update_self] at hcb hne
    exact h w g hcb fun hold => hne (hhand g hcb hold)
  · rw [hworkers, Function.update_of_ne hv] at hcb hne
    exact h v g hcb hne

/-- A move on the fiber in hand, which stays there. -/
theorem Spare.onFiber (h : Spare s) (he : Employing s owner) {w f : Nat} {b : Branch}
    {ph ph' : Phase (Cont C)} {x : Fiber (Cont C)} (hpc : (s.workers w).pc = .on b f ph) :
    Spare ((s.setFiber f x).setPC w (.on b f ph')) := by
  have hhand : (s.workers w).pc.hand = some f := by rw [hpc]; rfl
  refine h.setWorker (f := f) rfl (fun g hg => s.setFiber_ne f g x hg)
    (fun v hv => he.cbFiber_ne_hand hv hhand) fun g hcb hne => ?_
  have hgf : g ≠ f := fun hgf => hne (congrArg some hgf.symm)
  rw [State.setPC_heap, s.setFiber_ne f g x hgf]
  refine h w g hcb ?_
  rw [hhand]
  exact fun hfg => hgf (Option.some.inj hfg).symm

/-- A step of a worker leaves its `cb_fiber` in hand, recycled, or dropped. -/
theorem Spare.move [DecidableEq C] (h : Spare s) (he : Employing s owner)
    (hm : Move (callbacks prog) s l s') : Spare s' := by
  -- the worker lets go of a fiber that it does not keep, or drops it
  have release : ∀ {w f : Nat} {x : Fiber (Cont C)} {t : State (Cont C)} {y : Worker (Cont C)},
      (s.workers w).pc.hand = some f → t.workers = Function.update s.workers w y →
      t.heap = Function.update s.heap f x → y.pc.hand = none →
      (∀ g, y.cbFiber = some g → (s.workers w).cbFiber = some g) →
      (y.cbFiber = some f → x.state = .init) → Spare t := by
    intro w f x t y hhand hworkers hheap hnone hcb hx
    refine h.setWorker (f := f) hworkers (fun g hg => ?_) (fun v hv => he.cbFiber_ne_hand hv hhand)
      fun g hg _ => ?_
    · rw [hheap, Function.update_of_ne hg]
    · rw [hheap]
      by_cases hgf : g = f
      · rw [hgf, Function.update_self]
        exact hx (hgf ▸ hg)
      · rw [Function.update_of_ne hgf]
        refine h w g (hcb g hg) ?_
        rw [hhand]
        exact fun hfg => hgf (Option.some.inj hfg).symm
  cases hm with
  | fails _ => exact h
  | owner _ hf =>
    intro w g hcb hhand
    rw [hf.heap]
    rcases hf.worker w with hsame | ⟨-, tid, hnew⟩
    · rw [hsame] at hcb hhand
      exact h w g hcb hhand
    · rw [hnew] at hcb
      cases hcb
  | extSchedule _ => exact h
  | extNew =>
    intro w g hcb hhand
    rw [s.alloc_ne g _ (Nat.ne_of_lt ((he.wf.worker w).cb g hcb).1)]
    exact h w g hcb hhand
  | @prelude w hpc =>
    have hnew : ∀ v g, (s.workers v).cbFiber = some g → g ≠ s.nfib :=
      fun v g hg => Nat.ne_of_lt ((he.wf.worker v).cb g hg).1
    refine h.setWorker (f := s.nfib) rfl (fun g hg => s.alloc_ne g _ hg)
      (fun v _ hcb => hnew v _ hcb rfl) fun g hcb _ => ?_
    rw [State.setWorker_heap, s.alloc_ne g _ (hnew w g hcb)]
    exact h w g hcb (by rw [hpc]; nofun)
  | scanNone hpc _ | checkNone hpc | checkCb hpc | idleExit hpc _ _ | idleEnter hpc _ _ =>
    exact h.keep _ rfl rfl fun g _ hhand => by rw [hpc] at hhand; cases hhand
  | scanSome hpc _ => exact h.keep _ rfl rfl fun g _ hhand => by rw [hpc] at hhand; cases hhand
  | checkDone hpc hfin =>
    rw [he.not_checkDone hpc] at hfin
    cases hfin
  | checkFiber hpc _ => exact h.keep _ rfl rfl fun g _ hhand => by rw [hpc] at hhand; exact hhand
  | @prepareOld w k g hpc hg _ =>
    refine h.setWorker (f := g) rfl (fun f hf => s.setFiber_ne g f _ hf)
      (fun v hv hcb => hv (he.wf.cb_inj v w g hcb hg)) fun f hcb hne => ?_
    have hcb : (s.workers w).cbFiber = some f := hcb
    rw [hg] at hcb
    exact absurd hcb hne
  | @prepareNew w k hpc _ =>
    have hnew : ∀ v g, (s.workers v).cbFiber = some g → g ≠ s.nfib :=
      fun v g hg => Nat.ne_of_lt ((he.wf.worker v).cb g hg).1
    refine h.setWorker (f := s.nfib) rfl (fun g hg => s.alloc_ne g _ hg)
      (fun v _ hcb => hnew v _ hcb rfl) fun g hcb hne => ?_
    cases hcb
    exact absurd rfl hne
  | fiber hpc _ => exact h.onFiber he hpc
  | decrement hpc _ => exact h.keep _ rfl rfl fun g _ hhand => by rw [hpc] at hhand; exact hhand
  | @requeue w b f hpc =>
    refine release (x := s.heap f) (by rw [hpc]; rfl) rfl
      (Function.update_eq_self f s.heap).symm rfl
      (fun g => cbFiber_of_dropped) fun hcb => ?_
    cases b with
    | cb => cases hcb
    | task => exact absurd hcb (he.tidy.loose w f (by rw [hpc]; rfl) w)
    | idle => exact absurd rfl ((he.wf.worker w).fits _ f _ hpc)
  | @leave w b f hpc hb hfin =>
    refine release (x := s.heap f) (by rw [hpc]; rfl) rfl
      (Function.update_eq_self f s.heap).symm rfl
      (fun g => id) fun hcb => ?_
    cases b with
    | cb => exact absurd rfl hb
    | task => exact absurd hcb (he.tidy.loose w f (by rw [hpc]; rfl) w)
    | idle =>
      have hidle := ((he.wf.worker w).idle f ((he.wf.worker w).idleBranch f _ hpc)).2
      exact absurd (hidle.symm.trans ((he.wf.worker w).cb f hcb).2) nofun
  | @setHold w b f hpc =>
    obtain rfl := he.idle_of_setHold hpc
    refine release (by rw [hpc]; rfl) rfl rfl rfl (fun g => id) fun hcb => ?_
    have hidle := ((he.wf.worker w).idle f ((he.wf.worker w).idleBranch f _ hpc)).2
    exact absurd (hidle.symm.trans ((he.wf.worker w).cb f hcb).2) nofun
  | recycle hpc _ => exact release (by rw [hpc]; rfl) rfl rfl rfl (fun g => id) fun _ => rfl
  | code hpc _ _ _ => exact h.onFiber he hpc
  | codeSchedule hpc _ _ =>
    exact h.keep _ rfl rfl fun g _ hhand => by rw [hpc] at hhand; exact hhand
  | @codeNew w b f c c' k hpc _ =>
    intro v g hcb hhand
    by_cases hv : v = w
    · rw [hv, State.setPC_self] at hcb hhand
      have hold : (s.workers w).pc.hand ≠ some g := by rw [hpc]; exact hhand
      rw [State.setPC_heap, s.alloc_ne g _ (Nat.ne_of_lt ((he.wf.worker w).cb g hcb).1)]
      exact h w g hcb hold
    · rw [State.setPC_ne _ _ _ _ hv, State.alloc_workers] at hcb hhand
      rw [State.setPC_heap, s.alloc_ne g _ (Nat.ne_of_lt ((he.wf.worker v).cb g hcb).1)]
      exact h v g hcb hhand

/-! ### Orderly runs -/

/-- What holds throughout an orderly run. -/
structure Flawless (prog : C → Body C) (p : State (Cont C) × Record C) : Prop where
  draining : Draining prog p
  tracks : Tracks prog p.1 p.2
  resumable : Owned (fun _ => True) () (fun pos x _ => Consistent pos x ∧ Resumable pos x) p.1
    fun _ => ()
  active : ActiveExact p.1
  staged : Staged p.1
  equipped : Equipped p.1
  spare : Spare p.1
  fault : p.1.fault = none

/-- No assertion on a fiber can fail in the next step. -/
theorem Flawless.not_fails {p : State (Cont C) × Record C} (h : Flawless prog p)
    (l : Label (Cont C)) (e : Fault) : ¬ Fails p.1 l e := by
  have he := h.draining.employing
  intro hfails
  cases hfails with
  | @swapInExec w b f hpc hexec => exact (he.owned.on w b f _ trivial hpc).1.2 hexec
  | @yieldNotExec w b f c a hpc _ hexec => exact hexec (he.owned.on w b f _ trivial hpc).1.2
  | @reset w f k hpc hcb hreset =>
    have hinit := h.spare w f hcb (by rw [hpc]; nofun)
    rw [hinit] at hreset
    cases hreset
  | @recycle w b f hpc hreset =>
    have hfin : (p.1.heap f).state.finished = true := (he.owned.on w b f _ trivial hpc).1.2
    cases hst : (p.1.heap f).state <;> rw [hst] at hfin hreset <;> cases hfin <;> cases hreset
  | @neverReach w b f hpc => exact (h.resumable.on w b f _ trivial hpc).2.2.1 rfl

/-- The code in idle fibers does not throw. -/
theorem Employing.idleReturns [DecidableEq C] (h : Employing s owner)
    (hm : Move (callbacks prog) s l s') :
    IdleReturns s l := by
  cases l with
  | act w a =>
    cases a with
    | throw =>
      cases hm with
      | fails hf => cases hf with | yieldNotExec _ ha _ => simp at ha
      | owner hown _ => simp at hown
      | @code w b f c c' a x ph' hpc hc _ _ =>
        show (s.workers w).pc.inIdle = false
        have hidle : IdleOk true s := h.idle.mono fun _ => rfl
        rcases code_cases h.wf h.owned hidle hpc hc with
          ⟨-, -, ha | ⟨v, ha⟩ | ha⟩ | ⟨hb, -⟩
        · cases ha
        · cases ha
        · cases ha
        · rw [hpc]
          cases b with
          | idle => exact absurd rfl hb
          | _ => rfl
    | _ => trivial
  | _ => trivial

/-- The owner's own steps fail no assertion, and the others leave its fields alone. -/
theorem Staged.step [DecidableEq C] {r : Record C} (h : Staged s) (hd : Draining prog (s, r))
    (hord : Orderly prog (s, r) l) (hstep : step (callbacks prog) s l = some s') :
    Staged s' ∧ (l.notOwner = false → s'.fault = none) := by
  have hnone := (step_move hstep).1
  cases step_by hstep with
  | other hl hsame =>
    refine ⟨⟨?_, ?_, ?_, ?_⟩, fun hl' => absurd (hl.symm.trans hl') nofun⟩
    · rw [hsame.rootFiber, hsame.ctl, hsame.autoStop]
      exact h.rootFiber
    · rw [hsame.rootFiber, hsame.ctl]
      exact h.called
    · rw [hsame.autoStop, hsame.stoppingFlag, hsame.threads]
      exact h.threads
    · rw [hsame.ctl, hsame.stoppingFlag]
      exact h.flag
  | start hstart =>
    have hauto : s.autoStop = false := hord
    obtain ⟨hctl, -, hmove⟩ := startStep_move hstart
    cases hmove with
    | running _ => exact ⟨h, fun _ => hnone⟩
    | fails hflag hthreads => exact absurd (h.threads hauto hflag) hthreads
    | starts _ _ =>
      refine ⟨⟨h.rootFiber, h.called, fun _ hflag => (nomatch hflag), fun hlate => ?_⟩,
        fun _ => hnone⟩
      have hlate : s.ctl.late = true := hlate
      rw [hctl] at hlate
      cases hlate
  | stop hstop =>
    obtain ⟨-, rfl⟩ := stopStep_eq hstop
    refine ⟨⟨fun _ => h.rootFiber (.inl hord.1), nofun, nofun, nofun⟩, fun _ => hnone⟩
  | ctl hctl =>
    have hne : s.ctl ≠ .user := by
      intro hctl'
      simp [ctlStep, hctl'] at hctl
    obtain ⟨hnext, hfault⟩ := h.ctl (hd.joins.autoStop hne) hctl
    exact ⟨hnext, fun _ => hfault hnone⟩

/-- One step, from the invariants of the parts. No entry that has ended is dequeued, so the
    count stays exact. -/
theorem Flawless.step [DecidableEq C] {r : Record C} (h : Flawless prog (s, r))
    (hd : Draining prog (s', r.next s l)) (ht : Tracks prog s' (r.next s l))
    (hord : Orderly prog (s, r) l) (hstep : step (callbacks prog) s l = some s') :
    Flawless prog (s', r.next s l) := by
  have he : Employing s r.owner := h.draining.employing
  obtain ⟨hnone, hm⟩ := step_move hstep
  obtain ⟨hstaged, hfault⟩ := h.staged.step h.draining hord hstep
  have hnotDone : ¬ DequeuedFinished s l := by
    rintro ⟨w, f, rfl, hpc, hfin⟩
    rw [he.not_checkDone hpc] at hfin
    cases hfin
  refine ⟨hd, ht, ?_, ?_, hstaged, h.equipped.move hm, h.spare.move he hm, ?_⟩
  -- nobody takes up a fiber that another worker has in hand
  · exact h.resumable.move (local_resumable _) he.wf (fun _ => he.tidy.takesFree he.wf l)
      (fun _ => takesRipe_true s l) (he.idleReturns hm).keeps hm
  -- dequeue and decrement are the two steps that count
  · have hactive := hm.active he.wf (Nat.le_of_eq h.active.symm) hnotDone
    have hbefore : s.activeThreadCount = busyCount s := h.active
    show s'.activeThreadCount = busyCount s'
    omega
  · cases hl : l.notOwner with
    | false => exact hfault hl
    | true =>
      cases hm with
      | fails hf => exact absurd hf (h.not_fails l _)
      | owner hown _ => rcases hown with ⟨_, rfl⟩ | rfl | rfl <;> cases hl
      | _ => exact hnone

/-- So it is in every state of every run. -/
theorem flawless_reachable [DecidableEq C] {threads : Nat} (hthreads : 0 < threads)
    {useCaller : Bool} {caller : Int} :
    ∀ p, (recorded prog threads useCaller caller).Reachable p → Flawless prog p := by
  intro p hp
  induction hp with
  | init =>
    exact ⟨draining_reachable hthreads _ .init, (orderliness_reachable _ .init).tracks,
      Owned.initial threads useCaller caller, rfl, staged_initial threads useCaller caller,
      fun _ => .inr (.inl rfl), nofun, rfl⟩
  | @step p p' l hr hstep ih =>
    have hr' := hr.step l hstep
    obtain ⟨hord, hstep⟩ := System.restrict_step.mp hstep
    obtain ⟨hstep, hrecord⟩ := System.withHistory_step.mp hstep
    obtain ⟨s', r'⟩ := p'
    subst hrecord
    exact ih.step (draining_reachable hthreads _ hr')
      (orderliness_reachable _ hr').tracks hord hstep

/-- For any number of workers, any such callbacks and any interleaving: none of the assertions
    on the states of fibers, on the end of a fiber and on `m_threads` fails, and
    `m_activeThreadCount` is right. -/
theorem no_fault [DecidableEq C] {threads : Nat} (hthreads : 0 < threads) {useCaller : Bool}
    {caller : Int} {p : State (Cont C) × Record C}
    (h : (recorded prog threads useCaller caller).Reachable p) :
    p.1.fault = none ∧ ActiveExact p.1 :=
  ⟨(flawless_reachable hthreads p h).fault, (flawless_reachable hthreads p h).active⟩

end callbacks

theorem no_fault_early :
    ∃ p, (recorded parentAndChild 2 true 5).exec
      (.initial 2 true 5, .empty) stoppedEarly = some p ∧
      p.1.fault = none ∧ ActiveExact p.1 := by
  have hrun :
      ((recorded parentAndChild 2 true 5).exec (.initial 2 true 5, .empty) stoppedEarly).isSome
      = true := by decide
  obtain ⟨p, hp⟩ := Option.isSome_iff_exists.mp hrun
  exact ⟨p, hp, no_fault (by decide) (System.reachable_exec .init hp)⟩

end Gwn.Scheduler
