import Gwn.Framework.Justice
import Gwn.Scheduler.Turns
import Gwn.Scheduler.Due
import Mathlib.Data.Prod.Lex

/-! # `stop` returns

    Where no callback leads to an endless chain of further ones, `stop` comes to its end,
    and so do all callbacks, in every run that in the long run passes over no party which
    can move (`stop_returns`). Who moves nearer to it at any time (`State.helper`):

    - the owner, as long as it waits for nobody
    - a worker that has a task in hand
    - otherwise the worker that the owner waits for: it takes a task out of the queue, or
      goes through its idle fiber once more, in which `stopping()` answers true, and leaves -/

namespace Gwn.Scheduler

open LTS

variable {C : Type}

/-! ### The parties -/

/-- Who takes steps: the thread that calls `start` and `stop`, and the workers. -/
inductive Party where
  | owner
  | worker (w : Nat)
deriving DecidableEq

/-- Whose move it is. That `start`, `stop` or a foreign `schedule` is called is up to the
    program. -/
def Label.party {K : Type} : Label K → Option Party
  | .ctl => some .owner
  | .work w | .act w _ => some (.worker w)
  | _ => none

/-- A step of worker `w` is its own move. -/
theorem Label.party_ofWorker {K : Type} {l : Label K} {w : Nat} (h : l.ofWorker w) :
    l.party = some (.worker w) := by
  cases l <;> first | exact h.elim | exact h ▸ rfl

/-- The worker that the owner waits for and that has not left yet. -/
def State.awaited {K : Type} (s : State K) : Option Nat :=
  s.ctl.waitsFor.head?.filter fun w => !(s.workers w).pc.hasExited

/-- Some worker has a task in hand. -/
def State.atTask? {K : Type} (s : State K) : Option Nat :=
  (List.range s.nworkers).find? fun w => (s.workers w).pc.atTask

/-- Who brings `stop` nearer to its end. -/
def State.helper {K : Type} (s : State K) : Party :=
  match s.awaited with
  | none => .owner
  | some w => .worker (s.atTask?.getD w)

section enabled
variable {K : Type} {P : Prog K} {s : State K} {w : Nat}

/-- The phases of a branch of `run` wait for nothing; the code in the fiber moves by itself. -/
theorem phaseStep_isSome {b : Branch} {f : Nat} {ph : Phase K}
    (h : ∀ c, ph ≠ .inside (.body c)) :
    (phaseStep s w b f ph).isSome = true := by
  cases ph with
  | inside p =>
    cases p with
    | entry =>
      simp only [phaseStep]
      split <;> rfl
    | body c => exact absurd rfl (h c)
    | done => rfl
  | returned => cases b <;> rfl
  | requeue => cases b <;> rfl
  | setHold => cases b <;> rfl
  | testDone =>
    simp only [phaseStep]
    split
    · cases b <;> rfl
    · rfl
  | assertNotExec | testReady | recycle =>
    simp only [phaseStep]
    split <;> rfl
  | _ => rfl

/-- Only inside a fiber it is not the worker's turn. -/
theorem workStep_isSome (hequipped : Equipped s) (hexit : (s.workers w).pc ≠ .exited)
    (hbody : ∀ b f c, (s.workers w).pc ≠ .on b f (.inside (.body c))) :
    (workStep P s w).isSome = true := by
  unfold workStep
  split
  · rfl
  · split <;> rfl
  · split <;> rfl
  · rfl
  · rfl
  · split
    · split <;> rfl
    · rfl
  · next hpc =>
    rcases hequipped w with h | h | h
    · rw [hpc] at h
      cases h
    · exact absurd h hexit
    · obtain ⟨f, hf⟩ := Option.isSome_iff_exists.mp h
      simp only [hf]
      split <;> rfl
  · next b f ph hpc => exact phaseStep_isSome fun c hc => hbody b f c (by rw [hpc, hc])
  · next hpc => exact absurd hpc hexit

/-- What the state has to be like for an action of the code. -/
def State.Allows (s : State K) : Act K → Prop
  | .schedule fc _ => s.Schedulable fc
  | .newFiber _ g => g = s.nfib
  | .stopping v => v = s.stopping
  | _ => True

/-- The code in a fiber can do what the state allows. -/
theorem actStep_isSome {b : Branch} {f : Nat} {c : Code K} {a : Act K} (c' : Code K)
    (hpc : (s.workers w).pc = .on b f (.inside (.body c))) (hc : c.resume P a = some c')
    (ha : s.Allows a) : (actStep P s w a).isSome = true := by
  simp only [actStep, hpc, codeStep, hc, Option.bind_some]
  cases a with
  | schedule fc thread => simp only [if_pos (show s.Schedulable fc from ha), Option.isSome_some]
  | newFiber k g => simp only [if_pos (show g = s.nfib from ha), Option.isSome_some]
  | stopping v => simp only [if_pos (show v = s.stopping from ha), Option.isSome_some]
  | yieldToReady | yieldToHold =>
    simp only
    split <;> rfl
  | ret | throw => rfl

/-- Inside `stop` the owner can move unless it waits for a worker. -/
theorem ctlStep_isSome (hctl : s.ctl ≠ .user) (hwait : s.awaited = none) :
    (ctlStep s).isSome = true := by
  have hexited : ∀ w, s.ctl.waitsFor.head? = some w → (s.workers w).pc.hasExited = true := by
    intro w hw
    unfold State.awaited at hwait
    rw [hw] at hwait
    simpa using hwait
  unfold ctlStep
  split
  · next h => exact absurd h hctl
  · split <;> rfl
  · rfl
  · split <;> rfl
  · rfl
  · split <;> rfl
  · split <;> rfl
  · next w h => rw [if_pos (hexited w (by rw [h]; rfl))]; rfl
  · rfl
  · rfl
  · next w ws h => rw [if_pos (hexited w (by rw [h]; rfl))]; rfl

end enabled

section enabled
variable {prog : C → Body C} {s : State (Cont C)} {r : Record C} {w : Nat}

/-- A callback that is not at its end has something to do. -/
theorem Cont.goesOn [DecidableEq C] (prog : C → Body C) (k : Cont C) (tag : Nat) :
    ∃ a k', k.resume prog a = some k' ∧
      ((∃ c, a = .schedule (some (.cb (.start prog tag c))) (-1)) ∨
        a = .yieldToReady ∨ a = .ret ∨
        a = .throw) := by
  cases hnow : k.now with
  | cons c now =>
    refine ⟨.schedule (some (.cb (.start prog tag c))) (-1), { k with now := now }, ?_,
      .inl ⟨c, rfl⟩⟩
    simp [Cont.resume, hnow, Cont.start]
  | nil =>
    cases hlater : k.later with
    | cons seg later =>
      refine ⟨.yieldToReady, { k with now := seg, later := later }, ?_, .inr (.inl rfl)⟩
      simp [Cont.resume, hnow, hlater]
    | nil =>
      cases hthrows : k.throws with
      | true =>
        refine ⟨.throw, k, ?_, .inr (.inr (.inr rfl))⟩
        simp [Cont.resume, hnow, hlater, hthrows]
      | false =>
        refine ⟨.ret, k, ?_, .inr (.inr (.inl rfl))⟩
        simp [Cont.resume, hnow, hlater, hthrows]

/-- The code in a fiber always goes on. -/
theorem Flawless.body_enabled [DecidableEq C] (h : Flawless prog (s, r)) {b : Branch} {f : Nat}
    {c : Code (Cont C)} (hpc : (s.workers w).pc = .on b f (.inside (.body c))) :
    ∃ a, Orderly prog (s, r) (.act w a) ∧ (actStep (callbacks prog) s w a).isSome = true := by
  have he : Employing s r.owner := h.draining.employing
  by_cases hb : b = .idle
  · have hk : (s.heap f).idle = true := (he.wf.on_lt hpc).2.mpr hb
    obtain ⟨-, ⟨hc, -⟩ | hc | hc | ⟨-, hc⟩⟩ := he.idle.on w b f _ hk hpc hk
    · cases hc
    · cases hc
      refine ⟨.stopping s.stopping, trivial, ?_⟩
      cases hstop : s.stopping with
      | false => exact actStep_isSome .idleHold hpc rfl hstop.symm
      | true => exact actStep_isSome .idleDone hpc rfl hstop.symm
    · cases hc
      exact ⟨.yieldToHold, trivial, actStep_isSome .idleTest hpc rfl trivial⟩
    · cases hc
      exact ⟨.ret, trivial, actStep_isSome .idleDone hpc rfl trivial⟩
  · have hk : (s.heap f).idle = false := by simpa [hb] using (he.wf.on_lt hpc).2
    obtain ⟨-, -, ⟨k, rfl, -⟩, -⟩ := (he.owned.on w b f _ trivial hpc).2 hk
    obtain ⟨a, k', hk', ha⟩ := k.goesOn prog r.jobs.length
    have hc : (Code.user k).resume (callbacks prog) a = some (.user k') := by
      show (k.resume prog a).map Code.user = _
      rw [hk']
      rfl
    rcases ha with ⟨d, rfl⟩ | rfl | rfl | rfl
    · exact ⟨.schedule (some (.cb (.start prog r.jobs.length d))) (-1), rfl,
        actStep_isSome (.user k') hpc hc trivial⟩
    · exact ⟨.yieldToReady, trivial, actStep_isSome (.user k') hpc hc trivial⟩
    · exact ⟨.ret, trivial, actStep_isSome (.user k') hpc hc trivial⟩
    · exact ⟨.throw, trivial, actStep_isSome (.user k') hpc hc trivial⟩

variable [DecidableEq C] {threads : Nat} {useCaller : Bool} {caller : Int}

/-- A party that can take an orderly step of the scheduler can move in the recorded system. -/
theorem recorded_enabled {l : Label (Cont C)} {a : Party} (hparty : l.party = some a)
    (hord : Orderly prog (s, r) l) (hstep : (step (callbacks prog) s l).isSome = true) :
    (recorded prog threads useCaller caller).Enabled Label.party a (s, r) := by
  obtain ⟨s', hs'⟩ := Option.isSome_iff_exists.mp hstep
  exact ⟨l, (s', r.next s l), hparty,
    System.restrict_step.mpr ⟨hord, System.withHistory_step.mpr ⟨hs', rfl⟩⟩⟩

/-- A worker that has not left can move. -/
theorem Flawless.worker_enabled (h : Flawless prog (s, r)) (hw : (s.workers w).pc ≠ .exited) :
    (recorded prog threads useCaller caller).Enabled Label.party (.worker w) (s, r) := by
  have hfault : s.fault = none := h.fault
  by_cases hbody : ∃ b f c, (s.workers w).pc = .on b f (.inside (.body c))
  · obtain ⟨b, f, c, hpc⟩ := hbody
    obtain ⟨a, hord, hstep⟩ := h.body_enabled hpc
    refine recorded_enabled (l := .act w a) rfl hord ?_
    simpa [Scheduler.step, hfault] using hstep
  · have hwork := workStep_isSome (P := callbacks prog) h.equipped hw
      fun b f c hpc => hbody ⟨b, f, c, hpc⟩
    refine recorded_enabled (l := .work w) rfl trivial ?_
    simpa [Scheduler.step, hfault] using hwork

/-- Inside `stop` the owner can move unless it waits for a worker. -/
theorem Flawless.owner_enabled (h : Flawless prog (s, r)) (hctl : s.ctl ≠ .user)
    (hwait : s.awaited = none) :
    (recorded prog threads useCaller caller).Enabled Label.party .owner (s, r) := by
  have hfault : s.fault = none := h.fault
  refine recorded_enabled (l := .ctl) rfl trivial ?_
  simpa [Scheduler.step, hfault] using ctlStep_isSome hctl hwait

end enabled

/-! ### A worker without a task -/

/-- The idle fiber of the worker has ended. -/
def State.idleEnded {K : Type} (s : State K) (w : Nat) : Bool :=
  (s.workers w).idleFiber.any fun f => (s.heap f).state = .term

/-- How often the worker looks at the queue before it leaves, when the queue stays empty
    and `stopping()` answers true from now on. -/
def PC.looks {K : Type} (ended : Bool) : PC K → Nat
  | .exited => 0
  | .prelude => 2
  | .check none | .idleTest => if ended then 0 else 1
  | .on _ _ .assertNotExec | .on _ _ .setExec | .on _ _ .switchIn | .on _ _ (.inside .entry)
  | .on _ _ (.inside (.body .idleTest)) | .on _ _ (.inside (.body .idleDone)) => 1
  | _ => if ended then 1 else 2

/-- With something in the queue it has to get there; otherwise it has to leave. -/
def State.distance {K : Type} (s : State K) (w : Nat) : Nat :=
  if s.fibers = [] then 20 * (s.workers w).pc.looks (s.idleEnded w) + (s.workers w).pc.toGo
  else (s.workers w).pc.toGo

section rest
variable {prog : C → Body C} {s t : State (Cont C)} {r : Record C} {w : Nat} {l : Label (Cont C)}

/-- A worker without a task in hand is not counted as active. -/
theorem PC.busy_rest {K : Type} {pc : PC K} (h : pc.atTask = false) : pc.busy = false := by
  cases pc with
  | check ft =>
    cases ft with
    | none => rfl
    | some t => cases h
  | prepare k => cases h
  | on b f ph =>
    cases b with
    | idle => rfl
    | _ => cases h
  | _ => rfl

/-- A step of worker `w`, before and after which it has no task in hand: it moves its idle
    fiber only, and comes nearer to the queue, or to its end. -/
structure RestStep (s t : State (Cont C)) (w : Nat) : Prop where
  worker : ∃ y, t.workers = Function.update s.workers w y
  heap : ∀ g, g < s.nfib → (s.workers w).idleFiber ≠ some g → t.heap g = s.heap g
  down : (s.fibers = [] → s.stopping = true) → t.distance w < s.distance w

/-- The worker goes on as `y`. -/
theorem RestStep.of {y : Worker (Cont C)} (hworkers : t.workers = Function.update s.workers w y)
    (hfibers : t.fibers = s.fibers)
    (hheap : ∀ g, g < s.nfib → (s.workers w).idleFiber ≠ some g → t.heap g = s.heap g)
    (hdown : s.fibers ≠ [] → y.pc.toGo < (s.workers w).pc.toGo)
    (hempty : s.fibers = [] → s.stopping = true →
      20 * y.pc.looks (t.idleEnded w) + y.pc.toGo
        < 20 * (s.workers w).pc.looks (s.idleEnded w) + (s.workers w).pc.toGo) :
          RestStep s t w where
  worker := ⟨y, hworkers⟩
  heap := hheap
  down hstop := by
    have hw : t.workers w = y := by rw [hworkers, Function.update_self]
    unfold State.distance
    rw [hfibers, hw]
    by_cases hq : s.fibers = []
    · rw [if_pos hq, if_pos hq]
      exact hempty hq (hstop hq)
    · rw [if_neg hq, if_neg hq]
      exact hdown hq

/-- The idle fiber of the worker has come to its end. -/
theorem State.idleEnded_eq {K : Type} {s : State K} {w f : Nat}
    (hf : (s.workers w).idleFiber = some f) :
    s.idleEnded w = decide ((s.heap f).state = .term) := by
  rw [State.idleEnded, hf, Option.any_some]

/-- On the way through the idle fiber. -/
theorem FiberMove.looks {K : Type} {f : Nat} {x x' : Fiber K} {ph ph' : Phase K}
    (hm : FiberMove .idle x ph x' ph') (hat : IdleAt true (.on .idle ph) x)
    (hcons : Consistent (.on .idle ph) x) :
    ph'.toGo < ph.toGo ∧ (PC.on .idle f ph').looks (decide (x'.state = .term))
      ≤ (PC.on .idle f ph).looks (decide (x.state = .term)) := by
  obtain ⟨-, hat⟩ := hat
  cases hm with
  | assertNotExec _ => exact ⟨Nat.lt_succ_self _, Nat.le_refl _⟩
  | setExec => exact ⟨Nat.lt_succ_self _, Nat.le_refl _⟩
  | switchIn =>
    rcases hat with ⟨hctx, -⟩ | hctx <;> rw [hctx]
    · exact ⟨Nat.lt_succ_self _, Nat.le_refl _⟩
    · exact ⟨show 10 < 12 by decide, Nat.le_refl _⟩
  | call c hc =>
    rcases hat with ⟨-, hcb⟩ | h | h | ⟨-, h⟩
    · rw [hcb] at hc
      cases hc
      exact ⟨Nat.lt_succ_self _, Nat.le_refl _⟩
    all_goals cases h
  | callEmpty hc =>
    rcases hat with ⟨-, hcb⟩ | h | h | ⟨-, h⟩
    · rw [hcb] at hc
      cases hc
    all_goals cases h
  | yield st c =>
    obtain ⟨rfl, rfl⟩ := hat
    refine ⟨Nat.lt_succ_self _, ?_⟩
    rw [hcons.2.1]
    exact Nat.le_refl _
  | save p => exact ⟨Nat.lt_succ_self _, Nat.le_refl _⟩
  | back _ => exact ⟨show 4 < 6 by decide, Nat.le_refl _⟩
  | isReady _ => exact hat.elim
  | notReady _ => exact hat.elim
  | notDone _ => exact ⟨Nat.lt_succ_self _, Nat.le_refl _⟩
  | isDone hb _ => cases hb

/-- A step in the idle fiber `f`. -/
theorem RestStep.onIdle {f : Nat} {x : Fiber (Cont C)} {ph ph' : Phase (Cont C)}
    (hwf : WellFormed s) (hpc : (s.workers w).pc = .on .idle f ph) (hdown : ph'.toGo < ph.toGo)
    (hlooks : s.fibers = [] → s.stopping = true →
      (PC.on .idle f ph').looks (decide (x.state = .term))
        ≤ (PC.on .idle f ph).looks (decide ((s.heap f).state = .term))) :
    RestStep s ((s.setFiber f x).setPC w (.on .idle f ph')) w := by
  have hf : (s.workers w).idleFiber = some f := (hwf.worker w).idleBranch f ph hpc
  refine .of rfl rfl (fun g _ hg => ?_) (fun _ => ?_) fun hq hstop => ?_
  · have hne : g ≠ f := by
      rintro rfl
      exact hg hf
    exact s.setFiber_ne f g x hne
  · rw [hpc]
    exact hdown
  · have hafter :
        ((s.setFiber f x).setPC w (.on .idle f ph')).idleEnded w = decide (x.state = .term) := by
      rw [State.idleEnded_eq (f := f) (by rw [State.setPC_self]; exact hf), State.setPC_heap,
        s.setFiber_self]
    rw [hafter, State.idleEnded_eq hf, hpc]
    have hle := hlooks hq hstop
    have hdown : (PC.on .idle f ph').toGo < (PC.on .idle f ph).toGo := hdown
    show 20 * (PC.on .idle f ph').looks _ + (PC.on .idle f ph').toGo < _
    omega

/-- The worker leaves its idle fiber `f`, which it then has as `x`. -/
theorem RestStep.leaves {f : Nat} {x : Fiber (Cont C)} {ph : Phase (Cont C)} {y : Worker (Cont C)}
    (hwf : WellFormed s) (hpc : (s.workers w).pc = .on .idle f ph) (hph : 2 < ph.toGo)
    (hworkers : t.workers = Function.update s.workers w y) (hfibers : t.fibers = s.fibers)
    (hheap : t.heap = Function.update s.heap f x) (hy : y.pc = .scan)
    (hidle : y.idleFiber = (s.workers w).idleFiber)
    (hlooks : (PC.scan : PC (Cont C)).looks (decide (x.state = .term))
      ≤ (PC.on .idle f ph).looks (decide ((s.heap f).state = .term))) : RestStep s t w := by
  have hf : (s.workers w).idleFiber = some f := (hwf.worker w).idleBranch f ph hpc
  refine .of hworkers hfibers (fun g _ hg => ?_) (fun _ => ?_) fun _ _ => ?_
  · have hne : g ≠ f := by
      rintro rfl
      exact hg hf
    rw [hheap, Function.update_of_ne hne]
  · rw [hpc, hy]
    exact hph
  · have hafter : t.idleEnded w = decide (x.state = .term) := by
      rw [State.idleEnded_eq (f := f)
        (by rw [hworkers, Function.update_self, hidle]; exact hf), hheap,
        Function.update_self]
    rw [hafter, State.idleEnded_eq hf, hpc, hy]
    have hph : 2 < (PC.on .idle f ph).toGo := hph
    have hscan : (PC.scan : PC (Cont C)).toGo = 2 := rfl
    omega

/-- The worker goes on elsewhere, and no fiber changes. -/
theorem RestStep.moves (pc : PC (Cont C))
    (hdown : s.fibers ≠ [] → pc.toGo < (s.workers w).pc.toGo)
    (hempty : s.fibers = [] → 20 * pc.looks (s.idleEnded w) + pc.toGo
        < 20 * (s.workers w).pc.looks (s.idleEnded w) + (s.workers w).pc.toGo) :
    RestStep s (s.setPC w pc) w := by
  refine .of rfl rfl (fun g _ _ => rfl) hdown fun hq _ => ?_
  have hsame : (s.setPC w pc).idleEnded w = s.idleEnded w := by
    unfold State.idleEnded
    rw [State.setPC_self, State.setPC_heap]
  rw [hsame]
  exact hempty hq

/-- One case for each kind of step. -/
theorem Flawless.restStep [DecidableEq C] (h : Flawless prog (s, r)) (hl : l.ofWorker w)
    (hm : Move (callbacks prog) s l t) (hrest : (s.workers w).pc.atTask = false)
    (hrest' : (t.workers w).pc.atTask = false) : RestStep s t w := by
  have he : Employing s r.owner := h.draining.employing
  -- the fiber in hand is an idle one
  have idle : ∀ {b : Branch} {f : Nat} {ph : Phase (Cont C)}, (s.workers w).pc = .on b f ph →
      b = .idle := by
    intro b f ph hpc
    rw [hpc] at hrest
    cases b with
    | idle => rfl
    | _ => cases hrest
  -- the idle fiber in hand is where its loop has brought it
  have inLoop : ∀ {f : Nat} {ph : Phase (Cont C)}, (s.workers w).pc = .on .idle f ph →
      IdleAt true (.on .idle ph) (s.heap f) ∧ Consistent (.on .idle ph) (s.heap f) := by
    intro f ph hpc
    have hk : (s.heap f).idle = true := (he.wf.on_lt hpc).2.mpr rfl
    exact ⟨(he.idle.on w _ f _ hk hpc hk).mono fun _ => rfl,
      (he.owned.on w _ f _ trivial hpc).1⟩
  cases hm with
  | fails hf => exact absurd hf (h.not_fails _ _)
  | owner hown _ => rcases hown with ⟨_, rfl⟩ | rfl | rfl <;> exact hl.elim
  | extSchedule _ => exact hl.elim
  | extNew => exact hl.elim
  | prelude hpc =>
    obtain rfl := hl
    refine .of rfl rfl (fun g hg _ => s.alloc_ne g _ (Nat.ne_of_lt hg)) (fun _ => ?_) fun _ _ => ?_
    · rw [hpc]
      exact Nat.lt_succ_self 2
    · rw [State.idleEnded_eq (f := s.nfib) (by rw [State.setWorker_self]),
        State.setWorker_heap, s.alloc_self, hpc]
      exact Nat.lt_succ_self 42
  | scanNone hpc hscan =>
    obtain rfl := hl
    have hempty := he.tidy.scan_none hscan
    refine .moves (.check none) (fun hq => absurd hempty hq) fun _ => ?_
    rw [hpc]
    cases s.idleEnded _ with
    | true => exact show 16 < 22 by decide
    | false => exact show 36 < 42 by decide
  | scanSome _ _ =>
    obtain rfl := hl
    rw [State.setPC_self] at hrest'
    cases hrest'
  | checkNone hpc =>
    obtain rfl := hl
    refine .moves .idleTest (fun _ => ?_) fun _ => ?_
    · rw [hpc]
      exact Nat.lt_succ_self 15
    · rw [hpc]
      exact Nat.lt_succ_self _
  | checkDone hpc _ | checkFiber hpc _ | checkCb hpc | prepareOld hpc _ _ | prepareNew hpc _ =>
    obtain rfl := hl
    rw [hpc] at hrest
    cases hrest
  | idleExit hpc hf hst =>
    obtain rfl := hl
    refine .moves .exited (fun _ => ?_) fun _ => ?_
    · rw [hpc]
      exact Nat.succ_pos 14
    · rw [hpc]
      exact Nat.succ_pos _
  | idleEnter hpc hf hst =>
    obtain rfl := hl
    refine .moves (.on .idle _ .assertNotExec) (fun _ => ?_) fun _ => ?_
    · rw [hpc]
      exact Nat.lt_succ_self 14
    · rw [hpc, State.idleEnded_eq hf, decide_eq_false hst]
      exact Nat.lt_succ_self 34
  | fiber hpc hx =>
    obtain rfl := hl
    obtain rfl := idle hpc
    obtain ⟨hat, hcons⟩ := inLoop hpc
    obtain ⟨hdown, hlooks⟩ := hx.looks hat hcons
    exact .onIdle he.wf hpc hdown fun _ _ => hlooks
  | decrement hpc hb =>
    obtain rfl := hl
    exact absurd (idle hpc) hb
  | requeue hpc =>
    obtain rfl := hl
    exact absurd (idle hpc) ((he.wf.worker _).fits _ _ _ hpc)
  | @leave w' b f hpc _ hfin =>
    obtain rfl := hl
    obtain rfl := idle hpc
    refine .leaves (f := f) (x := s.heap f) he.wf hpc (show 2 < 4 by decide) rfl rfl
      (Function.update_eq_self f s.heap).symm rfl rfl (Nat.le_refl _)
  | @setHold w' b f hpc =>
    obtain rfl := hl
    obtain rfl := idle hpc
    refine .leaves (f := f) he.wf hpc (Nat.lt_succ_self 2) rfl rfl rfl rfl rfl ?_
    have hst : (s.heap f).state ≠ .term := by
      rcases (inLoop hpc).2.2 with hst | ⟨-, hst⟩ <;> rw [hst] <;> nofun
    rw [decide_eq_false hst]
    exact Nat.le_refl _
  | recycle hpc _ =>
    obtain rfl := hl
    have hb := (he.wf.worker _).fits _ _ _ hpc
    rw [idle hpc] at hb
    cases hb
  | @code w' b f c c' a x ph' hpc hc hx hv =>
    obtain rfl := hl
    obtain rfl := idle hpc
    obtain ⟨hat, hcons⟩ := inLoop hpc
    have hexec : (s.heap f).state ≠ .term := by
      rw [hcons.2]
      nofun
    rcases hat.2 with ⟨h, -⟩ | h | h | ⟨-, h⟩ <;> cases h
    · -- with nothing left to do the answer is true
      cases hx with
      | @stopping x v =>
        refine .onIdle he.wf hpc ?_ fun hq hstop => ?_
        · cases v <;> cases hc <;> exact Nat.lt_succ_self 9
        · obtain rfl : v = true := (hv v rfl).trans hstop
          cases hc
          exact Nat.le_refl 1
      | _ => cases hc
    · cases hx with
      | yieldToHold _ =>
        cases hc
        refine .onIdle he.wf hpc (Nat.lt_succ_self 8) fun _ _ => ?_
        rw [decide_eq_false hexec]
        exact Nat.le_refl 2
      | _ => cases hc
    · cases hx with
      | ret =>
        cases hc
        exact .onIdle he.wf hpc (show 7 < 9 by decide) fun _ _ => Nat.le_refl 1
      | _ => cases hc
  | codeSchedule hpc hc _ =>
    obtain rfl := hl
    have hidle : IdleOk true s := he.idle.mono fun _ => rfl
    rcases code_cases he.wf he.owned hidle hpc hc with
      ⟨-, -, ha | ⟨v, ha⟩ | ha⟩ | ⟨hb, -⟩
    · cases ha
    · cases ha
    · cases ha
    · exact absurd (idle hpc) hb
  | codeNew hpc hc =>
    obtain rfl := hl
    have hidle : IdleOk true s := he.idle.mono fun _ => rfl
    rcases code_cases he.wf he.owned hidle hpc hc with
      ⟨-, -, ha | ⟨v, ha⟩ | ha⟩ | ⟨hb, -⟩
    · cases ha
    · cases ha
    · cases ha
    · exact absurd (idle hpc) hb

end rest

section rest
variable {prog : C → Body C} {s t : State (Cont C)} {w v : Nat}

/-- The others come neither nearer nor farther. -/
theorem RestStep.others (h : RestStep s t w) (hwf : WellFormed s) (hfibers : t.fibers = s.fibers)
    (hv : v ≠ w) : t.workers v = s.workers v ∧ t.distance v = s.distance v := by
  obtain ⟨y, hworkers⟩ := h.worker
  have hsame : t.workers v = s.workers v := by rw [hworkers, Function.update_of_ne hv]
  refine ⟨hsame, ?_⟩
  have hended : t.idleEnded v = s.idleEnded v := by
    cases hf : (s.workers v).idleFiber with
    | none => rw [State.idleEnded, State.idleEnded, hsame, hf]; rfl
    | some f =>
      have hheap : t.heap f = s.heap f :=
        h.heap f ((hwf.worker v).idle f hf).1 fun hw => hv (hwf.idle_inj v w f hf hw)
      rw [State.idleEnded_eq (hsame ▸ hf), State.idleEnded_eq hf, hheap]
  unfold State.distance
  rw [hfibers, hsame, hended]

end rest

/-! ### Nearer to the end -/

/-- How far the owner still has to go. -/
def Ctl.ahead : Ctl → Nat
  | .user => 0
  | .join ws => ws.length + 1
  | .swapThreads => 2
  | .inRoot _ => 3
  | .callRoot => 4
  | .rootTest => 5
  | .setStopping => 6
  | .singleTest => 7
  | .singleSet => 8
  | .single => 9

/-- The owner's way to the end of `stop`: what is left of it, and the threads to be joined. -/
def State.ahead {K : Type} (s : State K) : Nat :=
  s.threads.length + s.ctl.ahead

/-- The owner's way, what the callbacks have left to do, and the way of the worker that the
    owner waits for, as far as it depends on it. -/
def State.rank (size : C → Nat) (s : State (Cont C)) : Nat ×ₗ Nat ×ₗ Nat :=
  toLex (s.ahead, match s.awaited with
    | none => toLex (0, 0)
    | some w => toLex (s.due size + 1, if s.atTask?.isSome then 0 else s.distance w))

/-- Each step inside `stop` is a step ahead. -/
theorem ahead_ctl {K : Type} {s t : State K} (hstep : ctlStep s = some t)
    (hfault : t.fault = none) :
    t.ahead < s.ahead := by
  unfold State.ahead
  cases ctlStep_move hstep with
  | single hctl _ | notSingle hctl _ | singleSet hctl | stopping hctl _ | notStopping hctl _
  | setStopping hctl | toCall hctl _ _ | call hctl _ | returned w hctl _ | join w ws hctl _
  | joined hctl =>
    rw [hctl]
    exact Nat.add_lt_add_left (by simp [Ctl.ahead]) _
  | noCall hctl _ =>
    rw [hctl]
    exact Nat.add_lt_add_left (show 2 < 5 by decide) _
  | callExec _ _ => cases hfault
  | neverReach _ _ _ => cases hfault
  | swapThreads hctl =>
    rw [hctl]
    show 0 + (s.threads.length + 1) < s.threads.length + 2
    omega

section steps
variable {K : Type} {s : State K} {w v : Nat}

/-- The owner waits for a worker that has not left. -/
theorem awaited_some (h : s.awaited = some v) :
    s.ctl.waitsFor.head? = some v ∧ (s.workers v).pc ≠ .exited := by
  obtain ⟨hv, hexit⟩ := Option.filter_eq_some_iff.mp h
  refine ⟨hv, fun hpc => ?_⟩
  rw [hpc] at hexit
  cases hexit

/-- While the owner waits `m_stopping` is set. -/
theorem Staged.awaited (h : Staged s) (hv : s.awaited = some v) : s.stoppingFlag = true := by
  apply h.flag
  have hhead := (awaited_some hv).1
  cases hctl : s.ctl <;> rw [hctl] at hhead <;> first | rfl | cases hhead

/-- The worker that is found has a task in hand, -/
theorem atTask_of_some (h : s.atTask? = some v) : (s.workers v).pc.atTask = true :=
  List.find?_some (p := fun w => (s.workers w).pc.atTask) h

/-- and if none is found none has. -/
theorem rest_of_none (hwf : WellFormed s) (h : s.atTask? = none) (v : Nat) :
    (s.workers v).pc.atTask = false := by
  by_cases hv : v < s.nworkers
  · simpa using List.find?_eq_none.mp h v (List.mem_range.mpr hv)
  · rw [hwf.absent v (by omega)]
    rfl

/-- Where nobody has a task in hand and nothing is queued, `stopping()` answers true. -/
theorem stopping_of_quiet (hwf : WellFormed s) (hactive : ActiveExact s) (hauto : s.autoStop = true)
    (hflag : s.stoppingFlag = true) (hquiet : s.atTask? = none) (hq : s.fibers = []) :
    s.stopping = true :=
  hactive.stopsWhenQuiet hauto hflag hq fun w => PC.busy_rest (rest_of_none hwf hquiet w)

end steps

section steps
variable {prog : C → Body C} {s t : State (Cont C)} {r r' : Record C} {w v : Nat}
  {l : Label (Cont C)} {size : C → Nat}

/-- A step of worker `w` while the owner waits for nobody. -/
theorem awaited_none_step [DecidableEq C] (h : Flawless prog (s, r))
    (hstep : step (callbacks prog) s l = some t) (hsame : OwnerSame s t)
    (hnone : s.awaited = none) :
    t.awaited = none := by
  rw [State.awaited, hsame.ctl, Option.filter_eq_none_iff]
  intro v hv
  have hexit : (s.workers v).pc = .exited := by
    by_contra hpc
    have hsome : s.awaited = some v := by
      rw [State.awaited, Option.filter_eq_some_iff]
      refine ⟨hv, ?_⟩
      cases hs : (s.workers v).pc <;> first | rfl | exact absurd hs hpc
    rw [hnone] at hsome
    cases hsome
  have hwf := h.draining.employing.wf
  have hexit' : (t.workers v).pc = .exited := by
    by_cases hlt : v < s.nworkers
    · exact exited_persist hstep hlt hexit
    · have hwf' : WellFormed t := hwf.move (step_move hstep).2
      rw [hwf'.absent v (by rw [hsame.nworkers]; omega)]
      rfl
  rw [hexit']
  nofun

/-- While the owner waits for `v` and goes on waiting. -/
theorem Flawless.waits_down [DecidableEq C] (h : Flawless prog (s, r)) (hsizes : Sizes prog size)
    (hauto : s.autoStop = true) (hl : l.ofWorker w) (hm : Move (callbacks prog) s l t)
    (hsame : OwnerSame s t) (hv : s.awaited = some v) (hv' : t.awaited = some v) :
    t.rank size < s.rank size ∨
      t.rank size = s.rank size ∧ t.helper = s.helper ∧ s.helper ≠ .worker w := by
  have hwf := h.draining.employing.wf
  have hahead : t.ahead = s.ahead := by
    unfold State.ahead
    rw [hsame.threads, hsame.ctl]
  unfold State.rank State.helper
  rw [hv, hv', hahead]
  rcases h.countsDown hsizes hl hm with hdue | ⟨hdue, hfibers, hrest, hrest'⟩
  · left
    exact Prod.Lex.toLex_lt_toLex.mpr (.inr ⟨rfl, Prod.Lex.toLex_lt_toLex.mpr
      (.inl (Nat.succ_lt_succ hdue))⟩)
  have hrests := h.restStep hl hm hrest hrest'
  -- nobody takes up a task or puts one away
  have htask : t.atTask? = s.atTask? := by
    obtain ⟨y, hworkers⟩ := hrests.worker
    unfold State.atTask?
    rw [hsame.nworkers]
    congr 1
    funext u
    by_cases hu : u = w
    · rw [hu, hrest, hrest']
    · rw [hworkers, Function.update_of_ne hu]
  rw [htask, hdue]
  cases htask' : s.atTask? with
  | some u =>
    refine .inr ⟨rfl, rfl, ?_⟩
    rintro ⟨⟩
    exact absurd ((atTask_of_some htask').symm.trans hrest) nofun
  | none =>
    have hstop : s.fibers = [] → s.stopping = true := fun hq =>
      stopping_of_quiet hwf h.active hauto (h.staged.awaited hv) htask' hq
    by_cases hvw : v = w
    · subst hvw
      left
      exact Prod.Lex.toLex_lt_toLex.mpr (.inr ⟨rfl, Prod.Lex.toLex_lt_toLex.mpr
        (.inr ⟨rfl, hrests.down hstop⟩)⟩)
    · refine .inr ⟨?_, rfl, ?_⟩
      · show toLex (s.ahead, toLex (s.due size + 1, t.distance v))
          = toLex (s.ahead, toLex (s.due size + 1, s.distance v))
        rw [(hrests.others hwf hfibers hvw).2]
      · rintro ⟨⟩
        exact hvw rfl

/-- A step of worker `w`. -/
theorem Flawless.worker_down [DecidableEq C] (h : Flawless prog (s, r)) (hsizes : Sizes prog size)
    (hauto : s.autoStop = true) (hl : l.ofWorker w)
    (hstep : Scheduler.step (callbacks prog) s l = some t) (hsame : OwnerSame s t) :
    t.rank size < s.rank size ∨
      t.rank size = s.rank size ∧ t.helper = s.helper ∧ s.helper ≠ .worker w := by
  have hahead : t.ahead = s.ahead := by
    unfold State.ahead
    rw [hsame.threads, hsame.ctl]
  cases hv : s.awaited with
  | none =>
    have hv' := awaited_none_step h hstep hsame hv
    unfold State.rank State.helper
    rw [hv, hv', hahead]
    exact .inr ⟨rfl, rfl, nofun⟩
  | some v =>
    cases hv' : t.awaited with
    | none =>
      -- the worker that the owner waits for has left
      left
      unfold State.rank
      rw [hv, hv', hahead]
      exact Prod.Lex.toLex_lt_toLex.mpr (.inr ⟨rfl, Prod.Lex.toLex_lt_toLex.mpr
        (.inl (Nat.succ_pos _))⟩)
    | some v' =>
      obtain rfl : v' = v := by
        have hhead := (awaited_some hv').1
        rw [hsame.ctl, (awaited_some hv).1] at hhead
        exact (Option.some.inj hhead).symm
      exact h.waits_down hsizes hauto hl (step_move hstep).2 hsame hv hv'

end steps

/-! ### Runs -/

section runs
variable {prog : C → Body C} [DecidableEq C] {threads : Nat} {useCaller : Bool} {caller : Int}

/-- `stop` has returned, every worker has left `run`, nothing is queued, and every callback
    ever scheduled has performed its script to its end. -/
structure Returned (prog : C → Body C) (p : State (Cont C) × Record C) : Prop where
  ctl : p.1.ctl = .user
  exited : ∀ w, (p.1.workers w).pc = .exited
  fibers : p.1.fibers = []
  scripts : ∀ t c, p.2.jobs[t]? = some c →
    performed (p.2.log.map fun e => (e.tag, e.ev)) t = (prog c).script

/-- `stop` has been called, in an orderly run. -/
def Stopped (prog : C → Body C) (threads : Nat) (useCaller : Bool) (caller : Int)
    (p : State (Cont C) × Record C) : Prop :=
  (recorded prog threads useCaller caller).Reachable p ∧ p.1.autoStop = true

/-- Once `stop` is called the helper can always move, and each of its moves brings the rank
    down; no other move raises it. -/
theorem helpful_stop (hthreads : 0 < threads) {size : C → Nat} (hsizes : Sizes prog size) :
    Helpful (recorded prog threads useCaller caller) Label.party
      (Stopped prog threads useCaller caller) (fun p => p.1.ctl = .user) (fun p => p.1.helper)
      fun p => p.1.rank size where
  keeps p l p' h hstep := by
    refine ⟨h.1.step l hstep, ?_⟩
    obtain ⟨-, hstep⟩ := System.restrict_step.mp hstep
    exact autoStop_persist (System.withHistory_step.mp hstep).1 h.2
  enabled := by
    rintro ⟨s, r⟩ ⟨hreach, -⟩ hctl
    have hflawless := flawless_reachable hthreads _ hreach
    show System.Enabled _ _ s.helper _
    unfold State.helper
    cases hv : s.awaited with
    | none => exact hflawless.owner_enabled hctl hv
    | some v =>
      apply hflawless.worker_enabled
      cases htask : s.atTask? with
      | none => exact (awaited_some hv).2
      | some u =>
        intro hpc
        have hat := atTask_of_some htask
        rw [show (s.workers u).pc = .exited from hpc] at hat
        cases hat
  down := by
    rintro ⟨s, r⟩ l ⟨t, r'⟩ ⟨hreach, hauto⟩ hctl hstep
    have hflawless := flawless_reachable hthreads _ hreach
    have hfault : t.fault = none := (flawless_reachable hthreads _ (hreach.step l hstep)).fault
    obtain ⟨hord, hstep⟩ := System.restrict_step.mp hstep
    have hstep : step (callbacks prog) s l = some t := (System.withHistory_step.mp hstep).1
    right
    -- the workers: the helper goes on, or another one and leaves rank and helper
    have worker : ∀ w, l.ofWorker w → t.rank size < s.rank size ∨
        t.rank size = s.rank size ∧ t.helper = s.helper ∧ l.party ≠ some s.helper := by
      intro w hl
      have hnot : l.notOwner = true := by cases l <;> first | rfl | exact hl.elim
      have hdown := hflawless.worker_down hsizes hauto hl hstep ((step_move hstep).2.ownerSame hnot)
      refine hdown.imp_right fun ⟨hrank, hhelper, hne⟩ => ⟨hrank, hhelper, ?_⟩
      rw [Label.party_ofWorker hl]
      exact fun heq => hne (Option.some.inj heq).symm
    -- an orderly owner neither starts nor stops again, and nobody schedules from outside
    cases l with
    | start tids => exact absurd (hord.symm.trans hauto) nofun
    | stop => exact absurd (hord.1.symm.trans hauto) nofun
    | ext a => exact absurd ((orderly_ext hord).1.symm.trans hauto) nofun
    | ctl =>
      left
      cases step_by hstep with
      | other hl _ => cases hl
      | ctl hctl => exact Prod.Lex.toLex_lt_toLex.mpr (.inl (ahead_ctl hctl hfault))
    | work w => exact worker w rfl
    | act w a => exact worker w rfl

/-- When `stop` has returned, all workers have left, the queue is empty, and so no callback
    has anything left to do. -/
theorem returned_of_user (hthreads : 0 < threads) {p : State (Cont C) × Record C}
    (h : Stopped prog threads useCaller caller p) (hctl : p.1.ctl = .user) : Returned prog p := by
  have hd := draining_reachable hthreads p h.1
  have hfibers := (hd.joins.returned hctl h.2).2
  have hexit : ∀ w, (p.1.workers w).pc = .exited := by
    intro w
    by_cases hw : w < p.1.nworkers
    · exact hd.joins.all_exited hctl h.2 w hw
    · rw [hd.employing.wf.absent w (by omega)]
      rfl
  -- what is pending would be queued or in some hand
  have hpending : p.1.pending = 0 := by
    have hqueued : p.1.queued = 0 := by
      rw [State.queued, hfibers]
      rfl
    have hhands : total (fun x => x.pc.job p.1.heap) p.1.workers p.1.nworkers = 0 := by
      apply total_eq_zero
      intro w _
      rw [hexit w]
      rfl
    rw [State.pending, hqueued, hhands, add_zero]
  exact ⟨hctl, hexit, hfibers, fun t c hc =>
    (orderliness_reachable p h.1).tracks.sound.all_performed hpending hc⟩

/-- Then nobody moves any more. -/
theorem Returned.not_enabled {p : State (Cont C) × Record C} (h : Returned prog p) (a : Party) :
    ¬ (recorded prog threads useCaller caller).Enabled Label.party a p := by
  rintro ⟨l, p', hparty, hstep⟩
  obtain ⟨-, hstep⟩ := System.restrict_step.mp hstep
  have hstep : step (callbacks prog) p.1 l = some p'.1 := (System.withHistory_step.mp hstep).1
  cases l with
  | ctl =>
    cases step_by hstep with
    | other hl _ => cases hl
    | ctl hctl => simp [ctlStep, h.ctl] at hctl
  | work w => exact step_not_exited hstep (.inl rfl) (h.exited w)
  | act w a => exact step_not_exited hstep (.inr ⟨a, rfl⟩) (h.exited w)
  | _ => cases hparty

/-- For any number of workers (threads, the caller or both), callbacks without an endless
    chain, and any just interleaving: once `stop` is called it returns, with all workers
    gone and all callbacks performed. -/
theorem stop_returns (hthreads : 0 < threads) (hends : WellFounded (Spawns prog))
    {run : Run (recorded prog threads useCaller caller)} (hjust : run.Just Label.party) {n : Nat}
    (hstopped : (run.states n).1.autoStop = true) :
    ∃ m, n ≤ m ∧ Returned prog (run.states m) := by
  obtain ⟨size, hsizes⟩ := exists_sizes hends
  have hinv : Stopped prog threads useCaller caller (run.states n) :=
    ⟨run.reachable n, hstopped⟩
  have hhelpful : Helpful (recorded prog threads useCaller caller) _ _ _ _ _ :=
    helpful_stop hthreads hsizes
  obtain ⟨m, hm, hctl⟩ := hhelpful.reaches hjust hinv
  exact ⟨m, hm, returned_of_user hthreads (run.stays hhelpful.keeps hinv hm) hctl⟩

end runs

/-- Callback 0 schedules callback 1, and that is all. -/
theorem parentAndChild_ends : WellFounded (Spawns parentAndChild) := by
  apply Subrelation.wf _ (measure fun c => 1 - c).wf
  intro c' c h
  match c, h with
  | 0, h =>
    simp [Spawns, parentAndChild, Body.script, eventsLeft] at h
    subst h
    exact Nat.zero_lt_one
  | c + 1, h => simp [Spawns, parentAndChild, Body.script, eventsLeft] at h

/-- The run of `stoppedEarly` goes through. -/
theorem stoppedEarly_runs :
    ((recorded parentAndChild 2 true 5).exec (.initial 2 true 5, .empty) stoppedEarly).isSome
      = true := by
  decide

/-- At its end nobody moves any more. -/
theorem stoppedEarly_just :
    (Run.finite (recorded parentAndChild 2 true 5) stoppedEarly stoppedEarly_runs).Just
      Label.party := by
  apply Run.finite_just
  have hend : Returned parentAndChild (Option.get _ stoppedEarly_runs) :=
    returned_of_user (by decide)
      ⟨System.reachable_get stoppedEarly stoppedEarly_runs, by decide⟩ (by decide)
  exact hend.not_enabled

/-- The run `stoppedEarly` gets there from its third step on. -/
theorem stop_returns_early :
    ∃ run : Run (recorded parentAndChild 2 true 5), (run.states 3).1.autoStop = true ∧
      ∃ m, 3 ≤ m ∧ Returned parentAndChild (run.states m) := by
  let run := Run.finite (recorded parentAndChild 2 true 5) stoppedEarly stoppedEarly_runs
  have hstopped : (run.states 3).1.autoStop = true := by decide
  exact ⟨run, hstopped, stop_returns (by decide) parentAndChild_ends stoppedEarly_just hstopped⟩

end Gwn.Scheduler
