import Gwn.Scheduler.Exclusive

/-! # A finished fiber is never resumed

    `swapIn` and `call` refuse only `EXEC`; that they are not used on a fiber in
    `TERM` or `EXCEPT` rests on their callers. Three of them do not see to it:

    - the idle branch of `run` tests its fiber against `TERM` only, so an
      overridden `idle` that throws is resumed behind its end
    - `stop` calls `m_rootFiber` whenever `stopping()` is false, also when the
      root fiber has run to its end in an earlier `stop`
    - a task fiber can be taken up twice (see `TakesFree`)

    `never_resumed` shows that there is no fourth. -/

namespace Gwn.Scheduler

open LTS

variable {K : Type} {P : Prog K}

/-! ### The condition -/

def PC.inIdle : PC K → Bool
  | .on .idle _ _ => true
  | _ => false

/-- An overridden `idle` does not throw. -/
def IdleReturns (s : State K) : Label K → Prop
  | .act w .throw => (s.workers w).pc.inIdle = false
  | _ => True

/-- `m_rootFiber` has run to its end. -/
def State.rootFinished (s : State K) : Prop :=
  s.rootFiber = some .term ∨ s.rootFiber = some .except

/-- When `stop` is about to call a root fiber that has run to its end, `stopping()` keeps it
    from doing so. -/
def RootCallable (s : State K) : Label K → Prop
  | .ctl => s.ctl = .rootTest → s.rootFinished → s.stopping = true
  | _ => True

instance (s : State K) (l : Label K) : Decidable (IdleReturns s l) := by
  unfold IdleReturns
  split <;> infer_instance

instance (s : State K) (l : Label K) : Decidable (RootCallable s l) := by
  unfold RootCallable State.rootFinished
  split <;> infer_instance

/-- The three places above are not reached. -/
def Careful (s : State K) (l : Label K) : Prop :=
  TakesFree s l ∧ IdleReturns s l ∧ RootCallable s l

instance (s : State K) (l : Label K) : Decidable (Careful s l) :=
  inferInstanceAs (Decidable (_ ∧ _ ∧ _))

/-! ### Fibers -/

/-- The code in the idle branch does not throw. -/
def noIdleThrow (b : Branch) (a : Act K) : Prop :=
  b = .idle → a ≠ .throw

theorem IdleReturns.keeps {s : State K} {l : Label K} (h : IdleReturns s l) :
    Keeps noIdleThrow s l := by
  rintro w a b f c rfl hpc rfl rfl
  have hidle : (s.workers w).pc.inIdle = false := h
  rw [hpc] at hidle
  cases hidle

/-- An idle fiber that is entered at `p` finds its callback. -/
def Fiber.Startable (x : Fiber K) (p : Point K) : Prop :=
  x.idle = true → p = .entry → x.cb ≠ none

/-- Where a fiber would be resumed, by where it stands in `run`: behind its end
    only if its state says so. An idle fiber does not end by an exception. -/
def Resumable : Pos K → Fiber K → Prop
  | .free, x =>
    (x.ctx = .done → x.state.finished = true) ∧ x.Startable x.ctx ∧
      (x.idle = true → x.state ≠ .except)
  | .checked, x => (x.ctx = .done → x.state.finished = true) ∧ x.idle = false
  | .on b ph, x => (x.idle = true → b = .idle ∧ x.state ≠ .except) ∧ match ph with
    | .assertNotExec | .setExec =>
      x.state.finished = false ∧ x.ctx ≠ .done ∧ x.Startable x.ctx
    | .switchIn => x.ctx ≠ .done ∧ x.Startable x.ctx
    | .inside p => p ≠ .done ∧ x.Startable p
    | .yielding _ _ => True
    | .switchOut p => p ≠ .entry ∧ (p = .done → x.state.finished = true)
    | .returned | .testReady | .requeue | .testDone =>
      x.ctx ≠ .entry ∧ (x.ctx = .done → x.state.finished = true)
    | .setHold => x.ctx ≠ .entry ∧ x.ctx ≠ .done
    | .recycle => b = .cb

/-- Neither `TERM`, which the idle branch tests, nor `EXCEPT`. -/
theorem FiberState.not_finished {st : FiberState} (h₁ : st ≠ .term) (h₂ : st ≠ .except) :
    st.finished = false := by
  cases st <;> simp_all [finished]

theorem startable_of_ne {x : Fiber K} {p : Point K} (h : p ≠ .entry) : x.Startable p :=
  fun _ hp => absurd hp h

theorem Resumable.fiberMove {b : Branch} {x x' : Fiber K} {ph ph' : Phase K}
    (h : Resumable (.on b ph) x) (hcons : Consistent (.on b ph) x)
    (hm : FiberMove b x ph x' ph') : Resumable (.on b ph') x' := by
  obtain ⟨hidle, h⟩ := h
  cases hm with
  | assertNotExec _ => exact ⟨hidle, h⟩
  | setExec => exact ⟨fun hx => ⟨(hidle hx).1, nofun⟩, h.2⟩
  | switchIn => exact ⟨hidle, h⟩
  | call c _ => exact ⟨hidle, nofun, startable_of_ne nofun⟩
  | callEmpty hcb =>
    -- an idle fiber has a callback to call
    exact ⟨fun hx => absurd hcb (h.2 hx rfl), nofun, fun _ => rfl⟩
  | yield st c =>
    refine ⟨fun hx => ⟨(hidle hx).1, ?_⟩, nofun, nofun⟩
    rcases hcons.2.2 with rfl | rfl <;> exact nofun
  | save p => exact ⟨hidle, h⟩
  | back _ => exact ⟨hidle, h⟩
  | isReady _ => exact ⟨hidle, h⟩
  | notReady _ => exact ⟨hidle, h⟩
  | notDone hx =>
    refine ⟨hidle, h.1, fun hctx => ?_⟩
    rw [h.2 hctx] at hx
    cases hx
  | isDone hb _ => exact ⟨hidle, hb⟩

theorem local_resumable (P : Prog K) : Local P noIdleThrow (fun _ => True) () (fun _ _ => ())
    fun p x _ => Consistent p x ∧ Resumable p x := by
  have hcons := local_consistent P noIdleThrow (fun _ => True) () fun _ _ => ()
  exact {
    new k := ⟨hcons.new k, nofun, nofun, nofun⟩
    newIdle := ⟨hcons.newIdle, nofun, fun _ _ => nofun, fun _ => nofun⟩
    schedule p x g h := h
    take x g h hidle hx hripe := ⟨hcons.take x g h.1 hidle hx hripe, h.2.1, hidle⟩
    checkDone x g h hx := by
      refine ⟨hcons.checkDone x g h.1 hx, h.2.1, fun hidle => ?_, fun hidle => ?_⟩ <;>
        exact absurd (h.2.2.symm.trans hidle) nofun
    checkFiber x g h hx := by
      refine ⟨hcons.checkFiber x g h.1 hx, fun hidle => absurd (h.2.2.symm.trans hidle) nofun, hx,
        fun hctx => ?_, fun hidle => absurd (h.2.2.symm.trans hidle) nofun⟩
      rw [h.2.1 hctx] at hx
      cases hx
    prepareNew k := ⟨hcons.prepareNew k, nofun, rfl, nofun, nofun⟩
    prepareOld x k g h hidle hx :=
      ⟨hcons.prepareOld x k g h.1 hidle hx, fun h' =>
        absurd (hidle.symm.trans h') nofun, rfl, nofun,
        fun h' => absurd (hidle.symm.trans h') nofun⟩
    idleEnter x g h hidle hx := by
      obtain ⟨hc, hctx, hstart, hexcept⟩ := h
      have hfin : x.state.finished = false := FiberState.not_finished hx (hexcept hidle)
      refine ⟨hcons.idleEnter x g hc hidle hx, fun _ => ⟨rfl, hexcept hidle⟩,
        hfin, fun h' => ?_, hstart⟩
      rw [hctx h'] at hfin
      cases hfin
    fiber b x ph x' ph' g h hm := ⟨hcons.fiber b x ph x' ph' g h.1 hm, h.2.fiberMove h.1 hm⟩
    decrement b x g h hb := ⟨hcons.decrement b x g h.1 hb, h.2⟩
    requeue b x g h := by
      obtain ⟨hc, hidle, hentry, hctx⟩ := h
      exact ⟨hcons.requeue b x g hc, hctx, startable_of_ne hentry, fun hx => (hidle hx).2⟩
    leave b x g h hb hx := by
      obtain ⟨hc, hidle, hentry, hctx⟩ := h
      exact ⟨hcons.leave b x g hc hb hx, hctx, startable_of_ne hentry, fun hx => (hidle hx).2⟩
    setHold b x g h := by
      obtain ⟨hc, hidle, hentry, hctx⟩ := h
      exact ⟨hcons.setHold b x g hc, fun h' => absurd h' hctx, startable_of_ne hentry,
        fun _ => nofun⟩
    recycle b x g h hx := by
      obtain ⟨hc, hidle, rfl⟩ := h
      exact ⟨hcons.recycle .cb x g hc hx, nofun, fun h' => absurd (hidle h').1 nofun,
        fun _ => nofun⟩
    goOn b c c' a x g h hc ha :=
      ⟨hcons.goOn b c c' a x g h.1 hc ha, h.2.1, nofun, startable_of_ne nofun⟩
    yieldToReady b c c' x g h hc ha hx :=
      ⟨hcons.yieldToReady b c c' x g h.1 hc ha hx, h.2.1, trivial⟩
    yieldToHold b c c' x g h hc ha hx :=
      ⟨hcons.yieldToHold b c c' x g h.1 hc ha hx, h.2.1, trivial⟩
    ret b c c' x g h hc ha :=
      ⟨hcons.ret b c c' x g h.1 hc ha, fun hx => ⟨(h.2.1 hx).1, nofun⟩, nofun, fun _ => rfl⟩
    throw b c c' x g h hc ha :=
      ⟨hcons.throw b c c' x g h.1 hc ha, fun hx => absurd rfl (ha (h.2.1 hx).1), nofun,
        fun _ => rfl⟩ }

/-! ### The root fiber -/

/-- The root fiber runs `run`, which neither yields nor throws, and `stop` calls
    it only where it can be entered. -/
structure RootOk (s : State K) : Prop where
  state : s.rootFiber = none ∨ s.rootFiber = some .init ∨ s.rootFiber = some .exec ∨
    s.rootFiber = some .term
  call : s.ctl = .callRoot → s.rootFiber = some .init ∨ s.rootFiber = some .exec

theorem RootOk.ctlStep {s s' : State K} (h : RootOk s) (hcall : RootCallable s .ctl)
    (hstep : ctlStep s = some s') :
    RootOk s' ∧ (s.fault = none → s'.fault ≠ some .rootNeverReach) := by
  cases ctlStep_move hstep with
  | toCall hctl hsome hstop =>
    -- the root fiber is called only if it has not finished
    refine ⟨⟨h.state, fun _ => ?_⟩, fun hf => by simp [hf]⟩
    rcases h.state with hroot | hroot | hroot | hroot
    · rw [hroot] at hsome
      cases hsome
    · exact .inl hroot
    · exact .inr hroot
    · have hstopping := hcall hctl (.inl hroot)
      rw [hstopping] at hstop
      cases hstop
  | callExec hctl hroot => exact ⟨⟨h.state, fun _ => .inr hroot⟩, fun _ => by simp⟩
  | call hctl _ =>
    exact ⟨⟨.inr (.inr (.inl rfl)), by simp⟩, fun hf => by simp [State.setWorker, hf]⟩
  | neverReach hctl hexec hinit =>
    rcases h.call hctl with hroot | hroot
    · exact absurd hroot hinit
    · exact absurd hroot hexec
  | returned w _ _ => exact ⟨⟨.inr (.inr (.inr rfl)), by simp⟩, fun hf => by simp [hf]⟩
  | _ => exact ⟨⟨h.state, by simp⟩, fun hf => by simp [hf]⟩

theorem RootOk.step {s s' : State K} {l : Label K} (h : RootOk s) (hcall : RootCallable s l)
    (hstep : step P s l = some s') : RootOk s' ∧ s'.fault ≠ some .rootNeverReach := by
  obtain ⟨hnone, hm⟩ := step_move hstep
  cases step_by hstep with
  | other hl hsame =>
    -- the workers and the other threads leave the root fiber alone
    refine ⟨⟨?_, ?_⟩, fun hfault => ?_⟩
    · rw [hsame.rootFiber]
      exact h.state
    · rw [hsame.rootFiber, hsame.ctl]
      exact h.call
    · cases hm with
      | fails hf =>
        cases hfault
        cases hf
      | owner hown _ => rcases hown with ⟨_, rfl⟩ | rfl | rfl <;> cases hl
      | _ => exact absurd (hnone.symm.trans hfault) nofun
  | start hstart =>
    cases (startStep_move hstart).2.2 with
    | running _ => exact ⟨h, by simp [hnone]⟩
    | fails _ _ => exact ⟨⟨h.state, h.call⟩, nofun⟩
    | starts _ _ => exact ⟨⟨h.state, h.call⟩, by simp [State.started, hnone]⟩
  | stop hstop =>
    obtain ⟨-, rfl⟩ := stopStep_eq hstop
    exact ⟨⟨h.state, nofun⟩, by simp [hnone]⟩
  | ctl hctl =>
    obtain ⟨hok, hfault⟩ := h.ctlStep hcall hctl
    exact ⟨hok, hfault hnone⟩

/-! ### Never resumed -/

structure NeverResumed (s : State K) : Prop where
  /-- `swapIn` is executed on a fiber that is neither `TERM` nor `EXCEPT`. -/
  swapIn : ∀ w b f, (s.workers w).pc = .on b f .assertNotExec ∨
    (s.workers w).pc = .on b f .setExec →
    (s.heap f).state.finished = false
  /-- So is `call`. -/
  call : s.ctl = .callRoot → ¬ s.rootFinished
  /-- The assertions at the end of `MainFunc` and of `CallerMainFunc` are not reached. -/
  asserts : (∀ f, s.fault ≠ some (.neverReach f)) ∧ s.fault ≠ some .rootNeverReach

/-- What holds in every state of a careful run. -/
structure CarefulInv (s : State K) : Prop where
  owned : Owned (fun _ => True) () (fun p x _ => Consistent p x ∧ Resumable p x) s fun _ => ()
  root : RootOk s
  /-- No assertion behind the end of a fiber has failed. -/
  asserts : (∀ f, s.fault ≠ some (.neverReach f)) ∧ s.fault ≠ some .rootNeverReach

theorem CarefulInv.step {s s' : State K} {l : Label K} (h : CarefulInv s) (hwf : WellFormed s)
    (hcareful : Careful s l) (hstep : step P s l = some s') : CarefulInv s' := by
  obtain ⟨hfree, hidle, hcall⟩ := hcareful
  obtain ⟨hnone, hm⟩ := step_move hstep
  obtain ⟨hroot, hfault⟩ := h.root.step hcall hstep
  have howned := h.owned.move (local_resumable P) hwf (fun _ => hfree) (fun _ => takesRipe_true s l)
    hidle.keeps hm
  refine ⟨howned, hroot, fun f hf => ?_, hfault⟩
  -- a context is never resumed at its end
  have hfails := hm.fault hnone hf rfl
  cases hfails with
  | neverReach hpc => exact (h.owned.on _ _ f _ trivial hpc).2.2.1 rfl

theorem carefulInv_reachable {threads : Nat} {useCaller : Bool} {caller : Int} :
    ∀ s, ((scheduler P threads useCaller caller).restrict Careful).Reachable s →
      CarefulInv s := by
  refine System.invariant_of (J := WellFormed) ?_ ?_ ?_
  · intro s hs
    exact wellFormed_reachable hs.of_restrict
  · refine ⟨Owned.initial threads useCaller caller, ⟨?_, nofun⟩, nofun, nofun⟩
    cases useCaller
    · exact .inl rfl
    · exact .inr (.inl rfl)
  · intro s l s' hwf hs hstep
    obtain ⟨hcareful, hstep⟩ := System.restrict_step.mp hstep
    exact hs.step hwf hcareful hstep

/-- For any number of workers, any code, any history of `start`, `schedule` and
    `stop` and any interleaving: as long as no worker takes up a fiber that
    another one has in hand, `idle` does not throw and a finished root fiber is
    not called, no finished fiber is resumed. -/
theorem never_resumed {threads : Nat} {useCaller : Bool} {caller : Int} {s : State K}
    (h : ((scheduler P threads useCaller caller).restrict Careful).Reachable s) :
    NeverResumed s := by
  obtain ⟨howned, hroot, hasserts⟩ := carefulInv_reachable s h
  refine ⟨fun w b f hpc => ?_, fun hctl hfin => ?_, hasserts⟩
  · rcases hpc with hpc | hpc
    · exact (howned.on w b f _ trivial hpc).2.2.1
    · exact (howned.on w b f _ trivial hpc).2.2.1
  · rcases hroot.call hctl with h' | h' <;> rcases hfin with hfin | hfin <;> rw [h'] at hfin <;>
      cases hfin

/-- An `idle` that throws, on one worker with nothing to do. -/
def throwingIdle : Prog Script :=
  { scripted with idle := .user .throw }

def idleThrows : List (Label Script) :=
  [.start [7], .work 0, .work 0, .work 0, .work 0, .work 0, .work 0, .work 0, .work 0,
    .act 0 .throw, .work 0, .work 0, .work 0, .work 0, .work 0, .work 0]

/-- The caller's thread is the only worker: `stop` calls the root fiber, which
    runs the callback, then its idle fiber to the end, and ends; `stop` returns. -/
def drained : List (Label Script) :=
  [.start [], .ext (.schedule (some (.cb .ret)) (-1)), .stop] ++ List.replicate 6 .ctl ++
    List.replicate 8 (.work 0) ++ [.act 0 .ret] ++ List.replicate 12 (.work 0) ++
    [.act 0 (.stopping true), .act 0 .ret] ++ List.replicate 6 (.work 0) ++ List.replicate 3 .ctl

/-- The idle branch enters its fiber again in state `EXCEPT`; and after another
    `schedule` the second `stop` calls the root fiber behind its end. -/
theorem not_neverResumed :
    (¬ ∀ s, (scheduler throwingIdle 1 false 0).Reachable s → NeverResumed s) ∧
      ¬ ∀ s, (scheduler scripted 1 true 0).Reachable s → NeverResumed s := by
  constructor <;> intro h
  · have hswap := (h _ (System.reachable_get idleThrows (by decide))).swapIn 0 .idle 0 (.inl rfl)
    cases hswap
  · have hassert := (h _ (System.reachable_get (drained ++
      [.ext (.schedule (some (.cb .ret)) (-1)), .stop, .ctl, .ctl, .ctl, .ctl, .ctl, .ctl])
      (by decide))).asserts.2
    exact hassert (by decide)

/-- A second `stop` with nothing queued does not touch the root fiber. -/
theorem never_resumed_drained :
    ∃ s, ((scheduler scripted 1 true 0).restrict Careful).exec (.initial 1 true 0)
        (drained ++ [.stop, .ctl, .ctl, .ctl]) = some s ∧
      s.rootFinished ∧ NeverResumed s := by
  have hrun : (((scheduler scripted 1 true 0).restrict Careful).exec (.initial 1 true 0)
      (drained ++ [.stop, .ctl, .ctl, .ctl])).isSome := by decide
  exact ⟨_, (Option.some_get hrun).symm, .inl rfl,
    never_resumed (P := scripted) (System.reachable_get _ hrun)⟩

end Gwn.Scheduler
