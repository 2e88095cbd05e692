import Gwn.Framework.Total
import Gwn.Scheduler.Tidy
import Mathlib.Algebra.Order.Group.Multiset

/-! # The scheduler as a pool of jobs

    A callback that is scheduled and has not ended is in one place: queued as a
    callback or with its fiber, or in the hand of a worker. `State.pending` collects
    what the callbacks in these places have left to do. Every step of the scheduler
    leaves this multiset as it is, adds a callback to it, or performs the next event
    of one callback in it (`Tracks.step`), so the log of a run and the places account
    for each other like those of any pool of jobs. -/

namespace Gwn.Scheduler

open LTS

variable {C : Type}

/-! ### Where callbacks are -/

/-- What the callback in a fiber has left when it goes on at the given point. -/
def Fiber.job (x : Fiber (Cont C)) : Point (Cont C) → Multiset (Job (Ev C))
  | .entry =>
    match x.cb with
    | some (.user k) => {⟨k.tag, .started :: k.rest⟩}
    | _ => 0
  | .body (.user k) => {⟨k.tag, k.rest⟩}
  | _ => 0

/-- The job of an entry: what its fiber has left, or all of a callback. -/
def Task.job (heap : Nat → Fiber (Cont C)) : Task (Cont C) → Multiset (Job (Ev C))
  | .fiber f => (heap f).job (heap f).ctx
  | .cb k => {⟨k.tag, .started :: k.rest⟩}

/-- The job that a worker has in hand; the idle fiber is none. -/
def PC.job (heap : Nat → Fiber (Cont C)) : PC (Cont C) → Multiset (Job (Ev C))
  | .check (some t) => t.job heap
  | .prepare k => (Task.cb k).job heap
  | .on .idle _ _ => 0
  | .on _ f ph => (heap f).job (ph.point (heap f))
  | _ => 0

/-- The jobs in the queue. -/
def State.queued (s : State (Cont C)) : Multiset (Job (Ev C)) :=
  (s.fibers.map fun e => e.task.job s.heap).sum

/-- What is queued and what the workers have in hand. -/
def State.pending (s : State (Cont C)) : Multiset (Job (Ev C)) :=
  s.queued + total (fun x => x.pc.job s.heap) s.workers s.nworkers

/-- In the branches of tasks and callbacks it is that of the fiber in hand. -/
theorem PC.job_on {heap : Nat → Fiber (Cont C)} {b : Branch} {f : Nat} {ph : Phase (Cont C)}
    (hb : b ≠ .idle) : (PC.on b f ph).job heap = (heap f).job (ph.point (heap f)) := by
  cases b with
  | idle => exact absurd rfl hb
  | _ => rfl

/-- The job of an entry depends on its fiber only. -/
theorem Task.job_congr {heap heap' : Nat → Fiber (Cont C)} {t : Task (Cont C)}
    (h : ∀ f, t = .fiber f → heap' f = heap f) : t.job heap' = t.job heap := by
  cases t with
  | fiber f =>
    show (heap' f).job (heap' f).ctx = (heap f).job (heap f).ctx
    rw [h f rfl]
  | cb k => rfl

/-- What a worker has in hand depends on the fiber in its hand only. -/
theorem PC.job_congr {heap heap' : Nat → Fiber (Cont C)} {pc : PC (Cont C)}
    (h : ∀ f, pc.hand = some f → heap' f = heap f) : pc.job heap' = pc.job heap := by
  match pc, h with
  | .check (some (.fiber f)), h =>
    have hf : heap' f = heap f := h f rfl
    show (heap' f).job (heap' f).ctx = (heap f).job (heap f).ctx
    rw [hf]
  | .on b f ph, h =>
    by_cases hb : b = .idle
    · rw [hb]
      rfl
    · rw [PC.job_on hb, PC.job_on hb, h f rfl]
  | .check (some (.cb k)), _ => rfl
  | .check none, _ => rfl
  | .prepare k, _ => rfl
  | .prelude, _ => rfl
  | .scan, _ => rfl
  | .idleTest, _ => rfl
  | .exited, _ => rfl

theorem queued_congr {s t : State (Cont C)} (hq : t.fibers = s.fibers)
    (h : ∀ e ∈ s.fibers, ∀ f, e.task = .fiber f → t.heap f = s.heap f) :
    t.queued = s.queued := by
  have hmap :
      s.fibers.map (fun e => e.task.job t.heap) = s.fibers.map fun e => e.task.job s.heap := by
    apply List.map_congr_left
    intro e he
    exact Task.job_congr (h e he)
  unfold State.queued
  rw [hq, hmap]

/-- `schedule` adds a job to the queue. -/
theorem queued_schedule (s : State (Cont C)) (t : Task (Cont C)) (thread : Int) :
    (s.schedule (some t) thread).queued = t.job s.heap + s.queued := by
  unfold State.queued
  rw [State.schedule_fibers, State.schedule_heap]
  simp [scheduleNoLock, add_comm]

/-- The scan moves a job from the queue into the worker's hand. -/
theorem queued_scan {s : State (Cont C)} {w : Nat} {e : FiberAndThread (Cont C)}
    {q : List (FiberAndThread (Cont C))}
    (hq : scanQueue s.heap (s.workers w).tid s.fibers = some (e, q)) :
    s.queued = e.task.job s.heap + (q.map fun e => e.task.job s.heap).sum := by
  obtain ⟨pre, post, hfib, rfl, -, -⟩ := scanQueue_some hq
  unfold State.queued
  rw [hfib]
  simp only [List.map_append, List.map_cons, List.sum_append, List.sum_cons]
  ac_rfl

/-- Worker `w` moves, and the fibers in other hands stay as they are. -/
theorem pending_move {s t : State (Cont C)} {w : Nat} {y : Worker (Cont C)} (hlt : w < s.nworkers)
    (hn : t.nworkers = s.nworkers) (hworkers : t.workers = Function.update s.workers w y)
    (hothers : ∀ v, v ≠ w → ∀ f, (s.workers v).pc.hand = some f → t.heap f = s.heap f) :
    ∃ r, s.pending = (s.workers w).pc.job s.heap + (s.queued + r) ∧
      t.pending = y.pc.job t.heap + (t.queued + r) := by
  have hsame : ∀ v, v < s.nworkers → v ≠ w →
      (t.workers v).pc.job t.heap = (s.workers v).pc.job s.heap := by
    intro v _ hv
    rw [hworkers, Function.update_of_ne hv]
    exact PC.job_congr (hothers v hv)
  obtain ⟨r, hbefore, hafter⟩ := total_split (fun x : Worker (Cont C) => x.pc.job s.heap)
    (fun x => x.pc.job t.heap) hlt hsame
  refine ⟨r, ?_, ?_⟩
  · unfold State.pending
    rw [hbefore]
    ac_rfl
  · have hself : t.workers w = y := by rw [hworkers, Function.update_self]
    unfold State.pending
    rw [hn, hafter, hself]
    ac_rfl

/-! ### Frames -/

/-- What holds throughout an orderly run. -/
structure Employing (s : State (Cont C)) (owner : Nat → Option Nat) : Prop where
  wf : WellFormed s
  owned : Owned (fun _ => True) none Employed s owner
  /-- An idle fiber ends only when `m_autoStop` is set. -/
  idle : IdleOk s.autoStop s
  tidy : Tidy s

/-- Worker `w`, which goes on as `y`, changes at most the fiber it has in hand and
    a new one, and leaves the queue alone. -/
structure Frame (s t : State (Cont C)) (w : Nat) (y : Worker (Cont C)) : Prop where
  lt : w < s.nworkers
  nworkers : t.nworkers = s.nworkers
  workers : t.workers = Function.update s.workers w y
  others : ∀ v, v ≠ w → ∀ f, (s.workers v).pc.hand = some f → t.heap f = s.heap f
  queued : t.queued = s.queued

/-- Fiber `f` is not queued, and in no hand but that of `w`. -/
structure State.Apart (s : State (Cont C)) (w f : Nat) : Prop where
  hand : ∀ v, v ≠ w → (s.workers v).pc.hand ≠ some f
  queue : ∀ e ∈ s.fibers, e.task ≠ .fiber f

namespace Employing

variable {s : State (Cont C)} {owner : Nat → Option Nat}

/-- The fiber in hand is apart from all others, -/
theorem apart_hand (h : Employing s owner) {w f : Nat} (hf : (s.workers w).pc.hand = some f) :
    s.Apart w f where
  hand v hv hother := hv (h.owned.inj v w f trivial hother hf)
  queue e he hef := h.tidy.hand e he f hef w hf

/-- and so is one that is not made yet. -/
theorem apart_new (h : Employing s owner) (w : Nat) : s.Apart w s.nfib where
  hand _ _ hother := Nat.lt_irrefl _ (h.wf.hand_lt hother)
  queue e he hef := Nat.lt_irrefl _ (h.wf.queue e he _ hef).1

/-- The `cb_fiber` of a worker that prepares a callback. -/
theorem apart_cbFiber (h : Employing s owner) {w g : Nat} {k : Cont C}
    (hpc : (s.workers w).pc = .prepare k) (hg : (s.workers w).cbFiber = some g) : s.Apart w g where
  hand v _ := by
    have htakes : s.takes w = some g := by simp [State.takes, hpc, hg]
    exact h.wf.free (h.tidy.takesFree h.wf (.work w) g htakes) v
  queue e he hef := h.tidy.cbFiber e he g hef w hg

/-- A step of `w` on such a fiber leaves all jobs but its own. -/
theorem frame (h : Employing s owner) {w f : Nat} {y : Worker (Cont C)} {t : State (Cont C)}
    (hw : (s.workers w).pc ≠ .exited) (hf : s.Apart w f)
    (hheap : ∀ g, g ≠ f → t.heap g = s.heap g) (hfibers : t.fibers = s.fibers)
    (hn : t.nworkers = s.nworkers) (hworkers : t.workers = Function.update s.workers w y) :
    Frame s t w y where
  lt := h.wf.lt_nworkers hw
  nworkers := hn
  workers := hworkers
  others v hv g hg := hheap g fun heq => hf.hand v hv (heq ▸ hg)
  queued := queued_congr hfibers fun e he g hg => hheap g fun heq => hf.queue e he (heq ▸ hg)

/-- No fiber changes. -/
theorem frame_same (h : Employing s owner) {w : Nat} {y : Worker (Cont C)} {t : State (Cont C)}
    (hw : (s.workers w).pc ≠ .exited) (hheap : t.heap = s.heap) (hfibers : t.fibers = s.fibers)
    (hn : t.nworkers = s.nworkers) (hworkers : t.workers = Function.update s.workers w y) :
    Frame s t w y :=
  h.frame hw (h.apart_new w) (fun g _ => by rw [hheap]) hfibers hn hworkers

/-- A worker that works on a fiber works on the callback the fiber was prepared for. -/
theorem working (h : Employing s owner) {w f : Nat} {b : Branch} {ph : Phase (Cont C)}
    (hpc : (s.workers w).pc = .on b f ph) (hb : b ≠ .idle) :
    (s.heap f).Bound (owner f) (ph.point (s.heap f)) ∧
      ((s.heap f).state.finished = true → ph.point (s.heap f) = .done) := by
  have hidle : (s.heap f).idle = false := by simpa [hb] using (h.wf.on_lt hpc).2
  obtain ⟨-, -, hbound, hdone, -⟩ := (h.owned.on w b f ph trivial hpc).2 hidle
  exact ⟨hbound, hdone⟩

/-- When the bookkeeping finds a fiber finished, nothing is left of its callback. -/
theorem job_finished (h : Employing s owner) {w f : Nat} {b : Branch} {ph : Phase (Cont C)}
    (hpc : (s.workers w).pc = .on b f ph) (hfin : (s.heap f).state.finished = true) :
    (s.workers w).pc.job s.heap = 0 := by
  rw [hpc]
  by_cases hb : b = .idle
  · rw [hb]
    rfl
  · rw [PC.job_on hb, (h.working hpc hb).2 hfin]
    rfl

/-- The fibers of callbacks never come to `setState(HOLD)`. -/
theorem idle_of_setHold (h : Employing s owner) {w f : Nat} {b : Branch}
    (hpc : (s.workers w).pc = .on b f .setHold) : b = .idle := by
  by_contra hb
  have hidle : (s.heap f).idle = false := by simpa [hb] using (h.wf.on_lt hpc).2
  have hemployed := h.owned.on w b f _ trivial hpc
  rcases hemployed.1.2 with hhold | ⟨hb', -⟩
  · exact (hemployed.2 hidle).1 hhold
  · exact hb hb'

/-- A dequeued fiber is not finished. -/
theorem not_checkDone (h : Employing s owner) {w f : Nat}
    (hpc : (s.workers w).pc = .check (some (.fiber f))) : (s.heap f).state.finished = false := by
  have hidle := ((h.wf.worker w).check f hpc).2
  obtain ⟨-, hready, -⟩ := (h.owned.checked w f trivial hpc).2 hidle
  rw [hready]
  rfl

end Employing

theorem Frame.move {s t : State (Cont C)} {w : Nat} {y : Worker (Cont C)} (h : Frame s t w y) :
    ∃ r, s.pending = (s.workers w).pc.job s.heap + r ∧ t.pending = y.pc.job t.heap + r := by
  obtain ⟨r, hbefore, hafter⟩ := pending_move h.lt h.nworkers h.workers h.others
  rw [h.queued] at hafter
  exact ⟨_, hbefore, hafter⟩

/-- The worker goes on with the job it had. -/
theorem Frame.keep {s t : State (Cont C)} {w : Nat} {y : Worker (Cont C)} (h : Frame s t w y)
    (hjob : y.pc.job t.heap = (s.workers w).pc.job s.heap) : t.pending = s.pending := by
  obtain ⟨r, hbefore, hafter⟩ := h.move
  rw [hbefore, hafter, hjob]

/-! ### Log and pool -/

/-- The log and the callbacks that are pending account for each other, and every
    event is the fiber's own callback's. -/
structure Tracks (prog : C → Body C) (s : State (Cont C)) (r : Record C) : Prop where
  sound : Pool.Sound (fun c => (prog c).script)
    ⟨r.jobs, r.log.map fun e => (e.tag, e.ev), s.pending⟩
  behalf : ∀ e ∈ r.log, e.behalf = some e.tag

namespace Tracks

variable {prog : C → Body C} {s t : State (Cont C)} {r : Record C} {l : Label (Cont C)}

/-- Nothing is scheduled and no callback does anything. -/
theorem quiet (h : Tracks prog s r) (hsub : l.submitted = []) (hlog : s.logged r.owner l = [])
    (hpending : t.pending = s.pending) : Tracks prog t (r.next s l) := by
  refine ⟨?_, fun e he => h.behalf e ?_⟩
  · simpa [Record.next, hsub, hlog, hpending] using h.sound
  · simpa [Record.next, hlog] using he

theorem add (h : Tracks prog s r) {c : C} (hsub : l.submitted = [c])
    (hlog : s.logged r.owner l = [])
    (hpending : t.pending = {⟨r.jobs.length, (prog c).script⟩} + s.pending) :
    Tracks prog t (r.next s l) := by
  refine ⟨?_, fun e he => h.behalf e ?_⟩
  · have hadd := h.sound.add c
    rw [← Multiset.singleton_add, ← hpending] at hadd
    simpa [Record.next, hsub, hlog] using hadd
  · simpa [Record.next, hlog] using he

/-- What is performed is performed for the callback in whose fiber it is. -/
theorem behalf_next (h : Tracks prog s r) {tag : Nat} {e : Ev C}
    (hlog : s.logged r.owner l = [⟨some tag, tag, e⟩]) :
    ∀ x ∈ (r.next s l).log, x.behalf = some x.tag := by
  intro x hx
  have hx : x ∈ r.log ∨ x = ⟨some tag, tag, e⟩ := by simpa [Record.next, hlog] using hx
  rcases hx with hx | rfl
  · exact h.behalf x hx
  · rfl

/-- A callback performs its next event. -/
theorem perform (h : Tracks prog s r) {tag : Nat} {e : Ev C} {rest : List (Ev C)}
    {m : Multiset (Job (Ev C))} (hsub : l.submitted = [])
    (hlog : s.logged r.owner l = [⟨some tag, tag, e⟩])
    (hbefore : s.pending = {⟨tag, e :: rest⟩} + m)
    (hafter : t.pending = {⟨tag, rest⟩} + m) :
    Tracks prog t (r.next s l) := by
  have hsound := h.sound
  rw [hbefore, Multiset.singleton_add] at hsound
  have hperform := hsound.perform
  rw [← Multiset.singleton_add, ← hafter] at hperform
  refine ⟨by simpa [Record.next, hsub, hlog] using hperform, h.behalf_next hlog⟩

/-- A callback performs its last event. -/
theorem finish (h : Tracks prog s r) {tag : Nat} {e : Ev C} {m : Multiset (Job (Ev C))}
    (hsub : l.submitted = []) (hlog : s.logged r.owner l = [⟨some tag, tag, e⟩])
    (hbefore : s.pending = {⟨tag, [e]⟩} + m) (hafter : t.pending = m) :
    Tracks prog t (r.next s l) := by
  have hsound := h.sound
  rw [hbefore, Multiset.singleton_add] at hsound
  have hfinish := hsound.finish
  rw [← hafter] at hfinish
  refine ⟨by simpa [Record.next, hsub, hlog] using hfinish, h.behalf_next hlog⟩

/-- A callback schedules another one, which is its next event. -/
theorem schedule (h : Tracks prog s r) {tag : Nat} {c : C} {rest : List (Ev C)}
    {m : Multiset (Job (Ev C))} (hsub : l.submitted = [c])
    (hlog : s.logged r.owner l = [⟨some tag, tag, .schedule c⟩])
    (hbefore : s.pending = {⟨tag, .schedule c :: rest⟩} + m)
    (hafter : t.pending = {⟨r.jobs.length, (prog c).script⟩} + ({⟨tag, rest⟩} + m)) :
    Tracks prog t (r.next s l) := by
  have hsound := h.sound
  rw [hbefore, Multiset.singleton_add] at hsound
  have hadd := hsound.perform.add c
  rw [← Multiset.singleton_add, ← Multiset.singleton_add] at hadd
  have hadd : Pool.Sound (fun c => (prog c).script)
      ⟨r.jobs ++ [c], r.log.map (fun e => (e.tag, e.ev)) ++ [(tag, .schedule c)],
        t.pending⟩ := by
    rw [hafter]
    exact hadd
  refine ⟨by simpa [Record.next, hsub, hlog] using hadd, h.behalf_next hlog⟩

/-- The worker goes on with the job it had. -/
theorem keep (h : Tracks prog s r) {w : Nat} {y : Worker (Cont C)} (hf : Frame s t w y)
    (hjob : y.pc.job t.heap = (s.workers w).pc.job s.heap)
    (hlog : s.logged r.owner (.work w) = []) : Tracks prog t (r.next s (.work w)) :=
  h.quiet rfl hlog (hf.keep hjob)

end Tracks

/-! ### Every step is one of the pool -/

/-- A move on the fiber in hand. -/
theorem Tracks.fiberMove {prog : C → Body C} {s : State (Cont C)} {r : Record C}
    (h : Tracks prog s r) (he : Employing s r.owner) {w f : Nat} {b : Branch}
    {ph ph' : Phase (Cont C)} {x : Fiber (Cont C)} (hpc : (s.workers w).pc = .on b f ph)
    (hx : FiberMove b (s.heap f) ph x ph') :
    Tracks prog ((s.setFiber f x).setPC w (.on b f ph')) (r.next s (.work w)) := by
  have hframe : Frame s ((s.setFiber f x).setPC w (.on b f ph')) w
      { s.workers w with pc := .on b f ph' } := by
    refine he.frame (by rw [hpc]; nofun) (he.apart_hand (f := f) (by rw [hpc]; rfl))
      (fun g hg => s.setFiber_ne f g x hg) rfl rfl rfl
  have hheap : ((s.setFiber f x).setPC w (.on b f ph')).heap f = x := s.setFiber_self f x
  by_cases hb : b = .idle
  · -- an idle fiber has no callback, before and after
    refine h.keep hframe (by rw [hpc, hb]; rfl) ?_
    cases hx with
    | call c hc =>
      have hk : (s.heap f).idle = true := (he.wf.on_lt hpc).2.mpr hb
      have hcb : (s.heap f).cb = some .idleTest := by
        rcases (he.idle.on w b f _ hk hpc hk).2 with ⟨-, hcb⟩ | hp | hp | ⟨-, hp⟩
        · exact hcb
        all_goals cases hp
      simp [State.logged, hpc, hcb]
    | callEmpty hc => simp [State.logged, hpc, hc]
    | _ => simp [State.logged, hpc]
  · -- the job of the worker, before and after, by the fiber and the phase
    have hjob :
        ∀ {y : Fiber (Cont C)}, y = x →
          y.job (ph'.point y) = (s.heap f).job (ph.point (s.heap f)) →
        (PC.on b f ph').job ((s.setFiber f x).setPC w (.on b f ph')).heap
          = (s.workers w).pc.job s.heap := by
      rintro _ rfl hy
      rw [PC.job_on hb, hheap, hpc, PC.job_on hb, hy]
    cases hx with
    | call c hc =>
      rcases (he.working hpc hb).1 with hnone | ⟨k, hk, howner⟩
      · rw [hnone] at hc
        cases hc
      · rw [hk] at hc
        cases hc
        obtain ⟨m, hbefore, hafter⟩ := hframe.move
        have hstart : (s.workers w).pc.job s.heap = {⟨k.tag, .started :: k.rest⟩} := by
          rw [hpc, PC.job_on hb]
          simp [Phase.point, Fiber.job, hk]
        have hgo : (PC.on b f (.inside (.body (.user k)))).job
            ((s.setFiber f (s.heap f)).setPC w (.on b f (.inside (.body (.user k))))).heap
              = {⟨k.tag, k.rest⟩} := PC.job_on hb
        refine h.perform (e := .started) rfl ?_ (hstart ▸ hbefore) (hgo ▸ hafter)
        simp [State.logged, hpc, hk, howner]
    | callEmpty hc =>
      refine h.keep hframe (hjob rfl ?_) (by simp [State.logged, hpc, hc])
      simp [Phase.point, Fiber.job, hc]
    | _ => exact h.keep hframe (hjob rfl rfl) (by simp [State.logged, hpc])

/-- An action of the code in the fiber in hand that changes nothing else. -/
theorem Tracks.codeMove [DecidableEq C] {prog : C → Body C} {s : State (Cont C)} {r : Record C}
    (h : Tracks prog s r) (he : Employing s r.owner) {w f : Nat} {b : Branch}
    {c c' : Code (Cont C)} {a : Act (Cont C)} {ph' : Phase (Cont C)} {x : Fiber (Cont C)}
    (hpc : (s.workers w).pc = .on b f (.inside (.body c)))
    (hc : c.resume (callbacks prog) a = some c') (hx : CodeMove c' a (s.heap f) x ph') :
    Tracks prog ((s.setFiber f x).setPC w (.on b f ph')) (r.next s (.act w a)) := by
  have hframe : Frame s ((s.setFiber f x).setPC w (.on b f ph')) w
      { s.workers w with pc := .on b f ph' } := by
    refine he.frame (by rw [hpc]; nofun) (he.apart_hand (f := f) (by rw [hpc]; rfl))
      (fun g hg => s.setFiber_ne f g x hg) rfl rfl rfl
  have hsub : (Label.act w a).submitted = [] := by cases hx <;> rfl
  obtain ⟨m, hbefore, hafter⟩ := hframe.move
  have hidle : IdleOk true s := he.idle.mono fun _ => rfl
  rcases code_cases he.wf he.owned hidle hpc hc with
    ⟨rfl, hloop, -⟩ | ⟨hb, k, k', rfl, rfl, howner, hk⟩
  · refine h.quiet hsub ?_ (hframe.keep (by rw [hpc]; rfl))
    match c, hloop with
    | .idleTest, _ => simp [State.logged, hpc]
    | .idleHold, _ => simp [State.logged, hpc]
    | .idleDone, _ => simp [State.logged, hpc]
    | .user k, hloop => exact absurd rfl (hloop k)
  · have hgo : (s.workers w).pc.job s.heap = {⟨k.tag, k.rest⟩} := by
      rw [hpc, PC.job_on hb]
      rfl
    have hleft : (PC.on b f ph').job ((s.setFiber f x).setPC w (.on b f ph')).heap
        = x.job (ph'.point x) := by
      rw [PC.job_on hb]
      exact congrArg (fun y => Fiber.job y (ph'.point y)) (s.setFiber_self f x)
    obtain ⟨htag, hact⟩ := resume_cases hk
    rw [hgo] at hbefore
    have hafter := hleft ▸ hafter
    have hlog :
        ∀ {e}, a.ev = some e → s.logged r.owner (.act w a) = [⟨some k.tag, k.tag, e⟩] := by
      intro e he
      simp [State.logged, hpc, he, howner]
    rcases hact with ⟨tag, d, rfl, -⟩ | ⟨rfl, hrest⟩ | ⟨rfl, hrest⟩ | ⟨rfl, hrest⟩
    · cases hx
    · cases hx
      rw [hrest] at hbefore
      refine h.perform rfl (hlog rfl) hbefore (hafter.trans ?_)
      simp [Phase.point, Fiber.job, htag]
    · cases hx
      rw [hrest] at hbefore
      refine h.finish rfl (hlog rfl) hbefore (hafter.trans ?_)
      simp [Phase.point, Fiber.job]
    · cases hx
      rw [hrest] at hbefore
      refine h.finish rfl (hlog rfl) hbefore (hafter.trans ?_)
      simp [Phase.point, Fiber.job]

/-- The code in a fiber schedules a callback. -/
theorem Tracks.codeSchedule [DecidableEq C] {prog : C → Body C} {s : State (Cont C)}
    {r : Record C} (h : Tracks prog s r) (he : Employing s r.owner) {w f : Nat} {b : Branch}
    {c c' : Code (Cont C)} {fc : Option (Task (Cont C))} {thread : Int}
    (hord : Orderly prog (s, r) (.act w (.schedule fc thread)))
    (hpc : (s.workers w).pc = .on b f (.inside (.body c)))
    (hc : c.resume (callbacks prog) (.schedule fc thread) = some c') :
    Tracks prog ((s.schedule fc thread).setPC w (.on b f (.inside (.body c'))))
      (r.next s (.act w (.schedule fc thread))) := by
  have hidle : IdleOk true s := he.idle.mono fun _ => rfl
  rcases code_cases he.wf he.owned hidle hpc hc with
    ⟨-, -, hact | ⟨v, hact⟩ | hact⟩ | ⟨hb, k, k', rfl, rfl, howner, hk⟩
  · cases hact
  · cases hact
  · cases hact
  · obtain ⟨htag, ⟨tag, d, hact, hrest⟩ | ⟨hact, -⟩ | ⟨hact, -⟩ | ⟨hact, -⟩⟩ :=
      resume_cases hk
    · cases hact
      -- the number that the new callback gets
      have hnumber : tag = r.jobs.length := hord
      subst hnumber
      obtain ⟨m, hbefore, hafter⟩ := pending_move
        (t := (s.schedule (some (.cb (.start prog r.jobs.length d))) (-1)).setPC w
          (.on b f (.inside (.body (.user k')))))
        (he.wf.lt_nworkers (by rw [hpc]; nofun)) rfl rfl fun _ _ _ _ => rfl
      have hgo : (s.workers w).pc.job s.heap = {⟨k.tag, .schedule d :: k'.rest⟩} := by
        rw [hpc, PC.job_on hb, ← hrest]
        rfl
      have hleft :
          (PC.on b f (.inside (.body (.user k')))).job s.heap = {⟨k.tag, k'.rest⟩} := by
        rw [PC.job_on hb, ← htag]
        rfl
      refine h.schedule rfl (by simp [State.logged, hpc, howner, Act.ev, Cont.start])
        (hgo ▸ hbefore) (hafter.trans ?_)
      have hqueue : ((s.schedule (some (.cb (.start prog r.jobs.length d))) (-1)).setPC w
          (.on b f (.inside (.body (.user k'))))).queued
            = {⟨r.jobs.length, (prog d).script⟩} + s.queued := queued_schedule s _ _
      rw [hqueue]
      show (PC.on b f (.inside (.body (.user k')))).job s.heap + _ = _
      rw [hleft]
      ac_rfl
    all_goals cases hact

/-- One case for each step of the scheduler: a job is added, goes on, is done, or is moved. -/
theorem Tracks.move [DecidableEq C] {prog : C → Body C} {s s' : State (Cont C)} {r : Record C}
    {l : Label (Cont C)} (h : Tracks prog s r) (he : Employing s r.owner)
    (hord : Orderly prog (s, r) l) (hm : Move (callbacks prog) s l s') :
    Tracks prog s' (r.next s l) := by
  cases hm with
  | fails hf =>
    cases hf with
    | swapInExec hpc _ => exact h.quiet rfl (by simp [State.logged, hpc]) rfl
    | @yieldNotExec w b f c a hpc _ hne =>
      exact absurd (he.owned.on w b f _ trivial hpc).1.2 hne
    | reset hpc _ _ => exact h.quiet rfl (by simp [State.logged, hpc]) rfl
    | recycle hpc _ => exact h.quiet rfl (by simp [State.logged, hpc]) rfl
    | neverReach hpc => exact h.quiet rfl (by simp [State.logged, hpc]) rfl
  | owner hl hf =>
    -- the workers that are new have nothing in hand
    have hsub : l.submitted = [] ∧ s.logged r.owner l = [] := by
      rcases hl with ⟨tids, rfl⟩ | rfl | rfl <;> exact ⟨rfl, rfl⟩
    refine h.quiet hsub.1 hsub.2 ?_
    have hqueue : s'.queued = s.queued := queued_congr hf.fibers fun _ _ _ _ => by rw [hf.heap]
    have hnew :
        ∀ v, s.nworkers ≤ v → v < s'.nworkers → (s'.workers v).pc.job s'.heap = 0 := by
      intro v h₁ h₂
      obtain ⟨tid, htid⟩ := hf.fresh v h₁ h₂
      rw [htid]
      rfl
    have hold :
        ∀ v, v < s.nworkers → (s'.workers v).pc.job s'.heap = (s.workers v).pc.job s.heap := by
      intro v hv
      rw [hf.old v (.inl hv), hf.heap]
    have hgrow : total (fun x => x.pc.job s'.heap) s'.workers s'.nworkers
        = total (fun x => x.pc.job s'.heap) s'.workers s.nworkers := total_grow hf.grow hnew
    have hsame : total (fun x => x.pc.job s'.heap) s'.workers s.nworkers
        = total (fun x => x.pc.job s.heap) s.workers s.nworkers := total_congr hold
    unfold State.pending
    rw [hqueue, hgrow, hsame]
  | @extSchedule fc thread _ =>
    match fc, hord with
    | some (.cb k), hord =>
      obtain ⟨-, rfl, hk⟩ := hord
      refine h.add (c := k.code) rfl rfl ?_
      have hqueue := queued_schedule s (.cb k) (-1)
      have hjob : (Task.cb k).job s.heap = {⟨r.jobs.length, (prog k.code).script⟩} := by
        show ({⟨k.tag, .started :: k.rest⟩} : Multiset (Job (Ev C))) = _
        rw [script_eq prog r.jobs.length k.code]
        rw [hk]
        rfl
      show (s.schedule _ _).queued + total _ s.workers s.nworkers = _
      rw [hqueue, hjob, add_assoc]
      rfl
  | extNew => exact hord.elim
  | @prelude w hpc =>
    refine h.keep (he.frame (by rw [hpc]; nofun) (he.apart_new w) (fun g hg => s.alloc_ne g _ hg)
      rfl rfl rfl) (by rw [hpc]; rfl) (by simp [State.logged, hpc])
  | @scanNone w hpc _ =>
    refine h.keep (he.frame_same (by rw [hpc]; nofun) rfl rfl rfl rfl) (by rw [hpc]; rfl)
      (by simp [State.logged, hpc])
  | @scanSome w e q hpc hq =>
    -- from the queue into the hand
    refine h.quiet rfl (by simp [State.logged, hpc]) ?_
    obtain ⟨m, hbefore, hafter⟩ := pending_move
      (t := { s with fibers := q, activeThreadCount := s.activeThreadCount + 1 }.setPC w
        (.check (some e.task)))
      (he.wf.lt_nworkers (by rw [hpc]; nofun)) rfl rfl fun _ _ _ _ => rfl
    rw [hbefore, hafter, hpc, queued_scan hq]
    show e.task.job s.heap + ((q.map fun e => e.task.job s.heap).sum + m) = 0 + (_ + m)
    rw [zero_add, add_assoc]
  | @checkNone w hpc =>
    refine h.keep (he.frame_same (by rw [hpc]; nofun) rfl rfl rfl rfl) (by rw [hpc]; rfl)
      (by simp [State.logged, hpc])
  | @checkDone w f hpc hfin =>
    rw [he.not_checkDone hpc] at hfin
    cases hfin
  | @checkFiber w f hpc _ =>
    refine h.keep (he.frame_same (by rw [hpc]; nofun) rfl rfl rfl rfl) (by rw [hpc]; rfl)
      (by simp [State.logged, hpc])
  | @checkCb w k hpc =>
    refine h.keep (he.frame_same (by rw [hpc]; nofun) rfl rfl rfl rfl) (by rw [hpc]; rfl)
      (by simp [State.logged, hpc])
  | @prepareOld w k g hpc hg _ =>
    refine h.keep (he.frame (by rw [hpc]; nofun) (he.apart_cbFiber hpc hg)
      (fun f hf => s.setFiber_ne g f _ hf) rfl rfl rfl) ?_ (by simp [State.logged, hpc])
    rw [hpc]
    show (PC.on .cb g .assertNotExec).job (s.setFiber g _).heap = _
    rw [PC.job_on (b := .cb) nofun, s.setFiber_self]
    rfl
  | @prepareNew w k hpc _ =>
    refine h.keep (he.frame (by rw [hpc]; nofun) (he.apart_new w) (fun g hg => s.alloc_ne g _ hg)
      rfl rfl rfl) ?_ (by simp [State.logged, hpc])
    rw [hpc]
    show (PC.on .cb s.nfib .assertNotExec).job (s.alloc _).heap = _
    rw [PC.job_on (b := .cb) nofun, s.alloc_self]
    rfl
  | @idleExit w f hpc _ _ =>
    refine h.keep (he.frame_same (by rw [hpc]; nofun) rfl rfl rfl rfl) (by rw [hpc]; rfl)
      (by simp [State.logged, hpc])
  | @idleEnter w f hpc _ _ =>
    refine h.keep (he.frame_same (by rw [hpc]; nofun) rfl rfl rfl rfl) (by rw [hpc]; rfl)
      (by simp [State.logged, hpc])
  | fiber hpc hx => exact h.fiberMove he hpc hx
  | @decrement w b f hpc hb =>
    refine h.keep (he.frame_same (by rw [hpc]; nofun) rfl rfl rfl rfl) ?_
      (by simp [State.logged, hpc])
    rw [hpc]
    show (PC.on b f .testReady).job s.heap = (PC.on b f .returned).job s.heap
    rw [PC.job_on hb, PC.job_on hb]
    rfl
  | @requeue w b f hpc =>
    -- from the hand into the queue, with the fiber
    have hb : b ≠ .idle := (he.wf.worker w).fits b f _ hpc
    refine h.quiet rfl (by simp [State.logged, hpc]) ?_
    obtain ⟨m, hbefore, hafter⟩ := pending_move
      (t := (s.schedule (some (.fiber f)) (-1)).setWorker w { s.workers w with
        pc := .scan, cbFiber := if b = .cb then none else (s.workers w).cbFiber })
      (he.wf.lt_nworkers (by rw [hpc]; nofun)) rfl rfl fun _ _ _ _ => rfl
    have hqueue : ((s.schedule (some (.fiber f)) (-1)).setWorker w { s.workers w with
        pc := .scan, cbFiber := if b = .cb then none else (s.workers w).cbFiber }).queued
          = (s.heap f).job (s.heap f).ctx + s.queued := queued_schedule s (.fiber f) (-1)
    rw [hbefore, hafter, hqueue, hpc, PC.job_on hb]
    show 0 + ((s.heap f).job (s.heap f).ctx + s.queued + m) = (s.heap f).job (s.heap f).ctx + _
    rw [zero_add, add_assoc]
  | @leave w b f hpc _ hfin =>
    -- the callback has ended before
    refine h.keep (he.frame_same (by rw [hpc]; nofun) rfl rfl rfl rfl) ?_
      (by simp [State.logged, hpc])
    rw [he.job_finished hpc hfin]
    rfl
  | @setHold w b f hpc =>
    -- no callback yields `HOLD`, so this is the idle fiber
    have hb := he.idle_of_setHold hpc
    refine h.keep (he.frame (by rw [hpc]; nofun) (he.apart_hand (f := f) (by rw [hpc]; rfl))
      (fun g hg => s.setFiber_ne f g _ hg) rfl rfl rfl) ?_ (by simp [State.logged, hpc])
    rw [hpc, hb]
    rfl
  | @recycle w b f hpc _ =>
    have hfin : (s.heap f).state.finished = true := (he.owned.on w b f _ trivial hpc).1.2
    refine h.keep (he.frame (by rw [hpc]; nofun) (he.apart_hand (f := f) (by rw [hpc]; rfl))
      (fun g hg => s.setFiber_ne f g _ hg) rfl rfl rfl) ?_ (by simp [State.logged, hpc])
    rw [he.job_finished hpc hfin]
    rfl
  | code hpc hc hx _ => exact h.codeMove he hpc hc hx
  | codeSchedule hpc hc _ => exact h.codeSchedule he hord hpc hc
  | @codeNew w b f c c' k hpc hc =>
    -- no callback makes a fiber
    have hidle : IdleOk true s := he.idle.mono fun _ => rfl
    rcases code_cases he.wf he.owned hidle hpc hc with
      ⟨-, -, hact | ⟨v, hact⟩ | hact⟩ | ⟨-, k, k', -, -, -, hk⟩
    · cases hact
    · cases hact
    · cases hact
    · rcases (resume_cases hk).2 with ⟨_, _, hact, -⟩ | ⟨hact, -⟩ |
        ⟨hact, -⟩ | ⟨hact, -⟩ <;>
        cases hact

/-! ### Runs -/

/-- Outside the scheduler, only callbacks are scheduled, before `stop` and for any thread. -/
theorem orderly_ext {prog : C → Body C} {p : State (Cont C) × Record C} {a : Act (Cont C)}
    (h : Orderly prog p (.ext a)) :
    p.1.autoStop = false ∧ ∃ k, a = .schedule (some (.cb k)) (-1) := by
  match a, h with
  | .schedule (some (.cb k)) thread, h =>
    obtain ⟨hauto, rfl, -⟩ := h
    exact ⟨hauto, k, rfl⟩

theorem Employing.step [DecidableEq C] {prog : C → Body C} {s s' : State (Cont C)} {r : Record C}
    {l : Label (Cont C)} (h : Employing s r.owner) (hord : Orderly prog (s, r) l)
    (hstep : Gwn.Scheduler.step (callbacks prog) s l = some s') :
    Employing s' (r.next s l).owner := by
  have hm := (step_move hstep).2
  refine ⟨h.wf.move hm, ?_, ?_, ?_⟩
  · exact h.owned.move (local_employed prog) h.wf (fun _ => h.tidy.takesFree h.wf l)
      (fun _ => h.tidy.takesRipe l) (keeps_true s l) hm
  · -- `stopping()` answers true only when `m_autoStop` is set
    refine (h.idle.step rfl h.wf hstep).mono fun ha => autoStop_persist hstep ?_
    simp only [answer, State.stopping, Bool.or_eq_true, Bool.and_eq_true] at ha
    rcases ha with ha | ⟨-, ⟨⟨ha, -⟩, -⟩, -⟩ <;> exact ha
  · refine h.tidy.move h.wf h.owned (h.idle.mono fun _ => rfl) ?_ hm
    rintro fc thread rfl
    obtain ⟨-, k, hk⟩ := orderly_ext hord
    cases hk
    exact ⟨rfl, k, rfl⟩

/-- What holds in every state of an orderly run. -/
structure Orderliness (prog : C → Body C) (p : State (Cont C) × Record C) : Prop where
  employing : Employing p.1 p.2.owner
  tracks : Tracks prog p.1 p.2

/-- Both hold in every orderly run. -/
theorem orderliness_reachable [DecidableEq C] {prog : C → Body C} {threads : Nat}
    {useCaller : Bool} {caller : Int} :
    ∀ p, (recorded prog threads useCaller caller).Reachable p → Orderliness prog p := by
  apply System.restrict_invariant
  · refine ⟨⟨wellFormed_initial threads useCaller caller,
      Owned.initial threads useCaller caller,
      Owned.initial threads useCaller caller, ?_⟩, ⟨?_, nofun⟩⟩
    · exact ⟨nofun, List.nodup_nil, nofun, nofun, nofun, nofun⟩
    · exact Pool.Sound.empty
  · rintro ⟨s, r⟩ l ⟨s', r'⟩ h hord hstep
    obtain ⟨hstep, rfl⟩ := System.withHistory_step.mp hstep
    exact ⟨h.employing.step hord hstep, h.tracks.move h.employing hord (step_move hstep).2⟩

end Gwn.Scheduler
