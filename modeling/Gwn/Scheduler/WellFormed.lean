import Gwn.Scheduler.Step

/-! # Well-formed states

    What holds in every reachable state of the scheduler, whatever the code in
    the fibers does: ids are allocated, `idle_fiber` and `cb_fiber` are the
    worker's own, the queue never holds an idle fiber, and the worker is in a
    branch of `run` with the fiber that belongs to this branch. -/

namespace Gwn.Scheduler

variable {K : Type} {P : Prog K}

/-- A fiber created by the user or for a callback. -/
def State.IsTask (s : State K) (f : Nat) : Prop :=
  f < s.nfib ∧ (s.heap f).idle = false

/-- A fiber created by `run` as its `idle_fiber`. -/
def State.IsIdle (s : State K) (f : Nat) : Prop :=
  f < s.nfib ∧ (s.heap f).idle = true

/-- The phases that only some branches of `run` go through. -/
def Phase.Fits (b : Branch) : Phase K → Prop
  | .testReady | .requeue => b ≠ .idle
  | .recycle => b = .cb
  | _ => True

/-- The fibers a worker refers to are of the right kind. -/
structure WorkerOk (heap : Nat → Fiber K) (nfib : Nat) (x : Worker K) : Prop where
  check : ∀ f, x.pc = .check (some (.fiber f)) → f < nfib ∧ (heap f).idle = false
  task : ∀ f ph, x.pc = .on .task f ph → f < nfib ∧ (heap f).idle = false
  cbBranch : ∀ f ph, x.pc = .on .cb f ph → x.cbFiber = some f
  idleBranch : ∀ f ph, x.pc = .on .idle f ph → x.idleFiber = some f
  cb : ∀ f, x.cbFiber = some f → f < nfib ∧ (heap f).idle = false
  idle : ∀ f, x.idleFiber = some f → f < nfib ∧ (heap f).idle = true
  fits : ∀ b f ph, x.pc = .on b f ph → ph.Fits b

/-- The invariant: workers exist up to `nworkers`, the queue holds tasks, every worker is in
    order, and no two share a `cb_fiber` or an `idle_fiber`. -/
structure WellFormed (s : State K) : Prop where
  absent : ∀ w, s.nworkers ≤ w → s.workers w = .absent
  queue : ∀ e ∈ s.fibers, ∀ f, e.task = .fiber f → s.IsTask f
  worker : ∀ w, WorkerOk s.heap s.nfib (s.workers w)
  cb_inj : ∀ w w' f, (s.workers w).cbFiber = some f → (s.workers w').cbFiber = some f → w = w'
  idle_inj : ∀ w w' f,
    (s.workers w).idleFiber = some f → (s.workers w').idleFiber = some f → w = w'

/-! ### Frame: fibers are added, and keep their kind -/

/-- `s'` has all fibers of `s`, each of the same kind. -/
def Extends (s s' : State K) : Prop :=
  s.nfib ≤ s'.nfib ∧ ∀ f, f < s.nfib → (s'.heap f).idle = (s.heap f).idle

/-- A task stays a task, -/
theorem Extends.isTask {s s' : State K} (h : Extends s s') {f : Nat} (hf : s.IsTask f) :
    s'.IsTask f :=
  ⟨Nat.lt_of_lt_of_le hf.1 h.1, (h.2 f hf.1).trans hf.2⟩

/-- and an idle fiber an idle fiber. -/
theorem Extends.isIdle {s s' : State K} (h : Extends s s') {f : Nat} (hf : s.IsIdle f) :
    s'.IsIdle f :=
  ⟨Nat.lt_of_lt_of_le hf.1 h.1, (h.2 f hf.1).trans hf.2⟩

/-- Steps that leave the fibers alone, -/
theorem extends_of_eq {s s' : State K} (hheap : s'.heap = s.heap) (hnfib : s'.nfib = s.nfib) :
    Extends s s' :=
  ⟨Nat.le_of_eq hnfib.symm, fun f _ => by rw [hheap]⟩

/-- that change one without changing its kind, -/
theorem extends_setFiber (s : State K) (f : Nat) {x : Fiber K}
    (hx : x.idle = (s.heap f).idle) : Extends s (s.setFiber f x) := by
  refine ⟨Nat.le_refl _, fun g _ => ?_⟩
  by_cases hg : g = f
  · rw [hg, s.setFiber_self, hx]
  · rw [s.setFiber_ne f g x hg]

/-- and that make one. -/
theorem extends_alloc (s : State K) (x : Fiber K) : Extends s (s.alloc x) := by
  refine ⟨Nat.le_succ _, fun g hg => ?_⟩
  rw [s.alloc_ne g x (Nat.ne_of_lt hg)]

theorem Extends.trans {s t u : State K} (h₁ : Extends s t) (h₂ : Extends t u) : Extends s u :=
  ⟨Nat.le_trans h₁.1 h₂.1, fun f hf => (h₂.2 f (Nat.lt_of_lt_of_le hf h₁.1)).trans (h₁.2 f hf)⟩

/-- No code changes what kind of fiber it runs in, -/
theorem CodeMove.idle_eq {c' : Code K} {a : Act K} {x x' : Fiber K} {ph : Phase K}
    (h : CodeMove c' a x x' ph) : x'.idle = x.idle := by
  cases h <;> rfl

/-- nor does the scheduler change it in a fiber in hand. -/
theorem FiberMove.idle_eq {b : Branch} {x x' : Fiber K} {ph ph' : Phase K}
    (h : FiberMove b x ph x' ph') : x'.idle = x.idle := by
  cases h <;> rfl

/-- The code moves between phases that all branches have. -/
theorem CodeMove.fits {b : Branch} {c' : Code K} {a : Act K} {x x' : Fiber K} {ph : Phase K}
    (h : CodeMove c' a x x' ph) : ph.Fits b := by
  cases h <;> trivial

/-- The bookkeeping goes on in the phases of its branch. -/
theorem FiberMove.fits {b : Branch} {x x' : Fiber K} {ph ph' : Phase K}
    (h : FiberMove b x ph x' ph') (hb : ph.Fits b) : ph'.Fits b := by
  cases h with
  | isReady _ => exact hb
  | isDone hcb _ => exact hcb
  | _ => trivial

/-- `start` and `stop` make no fibers. -/
theorem OwnerFrame.extends {s s' : State K} (h : OwnerFrame s s') : Extends s s' :=
  extends_of_eq h.heap h.nfib

/-! ### Workers -/

/-- A worker stays in order while fibers are added. -/
theorem WorkerOk.mono {s s' : State K} (h : Extends s s') {x : Worker K}
    (hx : WorkerOk s.heap s.nfib x) : WorkerOk s'.heap s'.nfib x where
  check f hf := h.isTask (hx.check f hf)
  task f ph hf := h.isTask (hx.task f ph hf)
  cbBranch := hx.cbBranch
  idleBranch := hx.idleBranch
  cb f hf := h.isTask (hx.cb f hf)
  idle f hf := h.isIdle (hx.idle f hf)
  fits := hx.fits

/-- The worker goes on with the same fiber in the same branch. -/
theorem WorkerOk.phase {heap : Nat → Fiber K} {n : Nat} {x : Worker K}
    (hx : WorkerOk heap n x) {b : Branch} {f : Nat} {ph : Phase K} (hpc : x.pc = .on b f ph)
    (ph' : Phase K) (hfits : ph'.Fits b) : WorkerOk heap n { x with pc := .on b f ph' } where
  check f' hf := by cases hf
  task f' ph'' hf := by
    cases hf
    exact hx.task f ph hpc
  cbBranch f' ph'' hf := by
    cases hf
    exact hx.cbBranch f ph hpc
  idleBranch f' ph'' hf := by
    cases hf
    exact hx.idleBranch f ph hpc
  cb := hx.cb
  idle := hx.idle
  fits b' f' ph'' hf := by
    cases hf
    exact hfits

/-- The worker is left without a fiber in hand; it may drop `cb_fiber`. -/
theorem WorkerOk.release {heap : Nat → Fiber K} {n : Nat} {x : Worker K}
    (hx : WorkerOk heap n x) (pc : PC K) (hpc : pc.hand = none) {o : Option Nat}
    (ho : o = none ∨ o = x.cbFiber) : WorkerOk heap n { x with pc := pc, cbFiber := o } where
  check f hf := by
    have hf : pc = .check (some (.fiber f)) := hf
    simp [hf, PC.hand] at hpc
  task f ph hf := by
    have hf : pc = .on .task f ph := hf
    simp [hf, PC.hand] at hpc
  cbBranch f ph hf := by
    have hf : pc = .on .cb f ph := hf
    simp [hf, PC.hand] at hpc
  idleBranch f ph hf := by
    have hf : pc = .on .idle f ph := hf
    simp [hf, PC.hand] at hpc
  cb f hf := by
    rcases ho with rfl | rfl
    · cases hf
    · exact hx.cb f hf
  idle := hx.idle
  fits b f ph hf := by
    have hf : pc = .on b f ph := hf
    simp [hf, PC.hand] at hpc

/-- A worker without fibers. -/
theorem WorkerOk.blank (heap : Nat → Fiber K) (n : Nat) {x : Worker K} (hpc : x.pc.hand = none)
    (hcb : x.cbFiber = none) (hidle : x.idleFiber = none) : WorkerOk heap n x := by
  refine ⟨fun f hf => ?_, fun f ph hf => ?_, fun f ph hf => ?_, fun f ph hf => ?_, fun f hf => ?_,
    fun f hf => ?_, fun b f ph hf => ?_⟩
  · exact absurd (hf ▸ hpc) nofun
  · exact absurd (hf ▸ hpc) nofun
  · exact absurd (hf ▸ hpc) nofun
  · exact absurd (hf ▸ hpc) nofun
  · exact absurd (hf.symm.trans hcb) nofun
  · exact absurd (hf.symm.trans hidle) nofun
  · exact absurd (hf ▸ hpc) nofun

/-- What the worker's fiber in hand is, by its branch. -/
theorem WellFormed.on_lt {s : State K} (h : WellFormed s) {w : Nat} {b : Branch} {f : Nat}
    {ph : Phase K} (hpc : (s.workers w).pc = .on b f ph) :
    f < s.nfib ∧ ((s.heap f).idle = true ↔ b = .idle) := by
  have hw := h.worker w
  cases b with
  | task =>
    have hf := hw.task f ph hpc
    exact ⟨hf.1, by simp [hf.2]⟩
  | cb =>
    have hf := hw.cb f (hw.cbBranch f ph hpc)
    exact ⟨hf.1, by simp [hf.2]⟩
  | idle =>
    have hf := hw.idle f (hw.idleBranch f ph hpc)
    exact ⟨hf.1, by simp [hf.2]⟩

/-- A fiber in hand has been made. -/
theorem WellFormed.hand_lt {s : State K} (h : WellFormed s) {w : Nat} {f : Nat}
    (hf : (s.workers w).pc.hand = some f) : f < s.nfib := by
  match hpc : (s.workers w).pc, hf with
  | .check (some (.fiber g)), hf =>
    cases hf
    exact ((h.worker w).check _ hpc).1
  | .on b g ph, hf =>
    cases hf
    exact (h.on_lt hpc).1

/-- Only the worker that an idle fiber belongs to ever has it in hand. -/
theorem WellFormed.idle_free {s : State K} (h : WellFormed s) {w f : Nat}
    (hpc : (s.workers w).pc.hand = none) (hf : (s.workers w).idleFiber = some f) (v : Nat) :
    (s.workers v).pc.hand ≠ some f := by
  have hkind := ((h.worker w).idle f hf).2
  intro hv
  match hpv : (s.workers v).pc, hv with
  | .check (some (.fiber g)), hv =>
    cases hv
    rw [((h.worker v).check f hpv).2] at hkind
    cases hkind
  | .on b g ph, hv =>
    cases hv
    -- so `v` is in its idle branch, with the idle fiber of `w`
    obtain rfl := (h.on_lt hpv).2.mp hkind
    obtain rfl := h.idle_inj v w f ((h.worker v).idleBranch f ph hpv) hf
    rw [hpv] at hpc
    cases hpc

/-- A worker with something to do has been created. -/
theorem WellFormed.lt_nworkers {s : State K} (h : WellFormed s) {w : Nat}
    (hw : (s.workers w).pc ≠ .exited) : w < s.nworkers := by
  apply Nat.lt_of_not_le
  intro hle
  rw [h.absent w hle] at hw
  exact hw rfl

/-! ### Preservation -/

/-- No two workers have the same fiber in `field`, also after one of them has got a new one. -/
theorem inj_update {field : Worker K → Option Nat} {workers : Nat → Worker K} {n : Nat}
    (hinj : ∀ v v' f, field (workers v) = some f → field (workers v') = some f → v = v')
    (hlt : ∀ v f, field (workers v) = some f → f < n) {w : Nat} {y : Worker K}
    (hy : ∀ f, field y = some f → f = n ∨ field (workers w) = some f) :
    ∀ v v' f, field (Function.update workers w y v) = some f →
      field (Function.update workers w y v') = some f → v = v' := by
  -- the only new fiber is above every id in use
  have key : ∀ v f, field (workers v) = some f → field y = some f → v = w := by
    intro v f h₁ h₂
    rcases hy f h₂ with rfl | h₂
    · exact absurd (hlt v _ h₁) (Nat.lt_irrefl _)
    · exact hinj v w f h₁ h₂
  intro v v' f h₁ h₂
  -- whether one of the two, or both, are the one that moves
  by_cases hv : v = w <;> by_cases hv' : v' = w
  · rw [hv, hv']
  · rw [hv, Function.update_self] at h₁
    rw [Function.update_of_ne hv'] at h₂
    rw [hv, key v' f h₂ h₁]
  · rw [Function.update_of_ne hv] at h₁
    rw [hv', Function.update_self] at h₂
    rw [hv', key v f h₁ h₂]
  · rw [Function.update_of_ne hv] at h₁
    rw [Function.update_of_ne hv'] at h₂
    exact hinj v v' f h₁ h₂

/-- One worker moves. A `cb_fiber` or `idle_fiber` it did not have before is a new fiber. -/
theorem WellFormed.setWorker {s s' : State K} {w : Nat} {y : Worker K} (h : WellFormed s)
    (hw : (s.workers w).pc ≠ .exited) (hext : Extends s s') (hn : s'.nworkers = s.nworkers)
    (hworkers : s'.workers = Function.update s.workers w y)
    (hqueue : ∀ e ∈ s'.fibers, ∀ f, e.task = .fiber f → s'.IsTask f)
    (hy : WorkerOk s'.heap s'.nfib y)
    (hcb : ∀ f, y.cbFiber = some f → f = s.nfib ∨ (s.workers w).cbFiber = some f)
    (hidle : ∀ f, y.idleFiber = some f → f = s.nfib ∨ (s.workers w).idleFiber = some f) :
    WellFormed s' := by
  refine ⟨fun v hv => ?_, hqueue, fun v => ?_, ?_, ?_⟩
  -- a worker that moves is not an absent one
  · have hlt := h.lt_nworkers hw
    rw [hn] at hv
    have hvw : v ≠ w := by omega
    rw [hworkers, Function.update_of_ne hvw, h.absent v (by omega)]
  · rw [hworkers]
    by_cases hv : v = w
    · rw [hv, Function.update_self]
      exact hy
    · rw [Function.update_of_ne hv]
      exact (h.worker v).mono hext
  · rw [hworkers]
    exact inj_update h.cb_inj (fun v f hf => ((h.worker v).cb f hf).1) hcb
  · rw [hworkers]
    exact inj_update h.idle_inj (fun v f hf => ((h.worker v).idle f hf).1) hidle

/-- The worker's program counter moves and nothing else that matters here. -/
theorem WellFormed.setPC {s t : State K} {w : Nat} {pc : PC K} (h : WellFormed s)
    (hw : (s.workers w).pc ≠ .exited) (hext : Extends s t) (hn : t.nworkers = s.nworkers)
    (hworkers : t.workers = s.workers)
    (hqueue : ∀ e ∈ t.fibers, ∀ f, e.task = .fiber f → t.IsTask f)
    (hy : WorkerOk t.heap t.nfib { s.workers w with pc := pc }) : WellFormed (t.setPC w pc) := by
  have hset : Extends t (t.setPC w pc) := extends_of_eq rfl rfl
  apply h.setWorker (w := w) (y := { s.workers w with pc := pc }) hw
  · exact hext.trans hset
  · exact hn
  · rw [← hworkers]
    rfl
  · exact hqueue
  · exact hy.mono hset
  · exact fun f hf => .inr hf
  · exact fun f hf => .inr hf

/-- What may be scheduled is a task: nobody outside `run` gets hold of an idle fiber. -/
theorem isTask_of_schedulable {s : State K} {fc : Option (Task K)} (h : s.Schedulable fc) :
    ∀ f, fc = some (.fiber f) → s.IsTask f := by
  rintro f rfl
  exact h

/-- The queue after `schedule`. -/
theorem WellFormed.schedule_queue {s : State K} (h : WellFormed s) {fc : Option (Task K)}
    (hfc : s.Schedulable fc) (thread : Int) :
    ∀ e ∈ (s.schedule fc thread).fibers, ∀ f, e.task = .fiber f → s.IsTask f := by
  intro e he f hf
  rw [s.schedule_fibers, mem_scheduleNoLock] at he
  rcases he with he | ⟨t, rfl, rfl⟩
  · exact h.queue e he f hf
  · exact isTask_of_schedulable hfc f (by rw [← hf])

/-- `start`, `stop` and the root fiber's start add workers that have no fibers yet. -/
theorem WellFormed.owner {s s' : State K} (h : WellFormed s) (hf : OwnerFrame s s') :
    WellFormed s' := by
  refine ⟨fun w hw => ?_, fun e he f hef => ?_, fun w => ?_, fun w w' f h₁ h₂ => ?_,
    fun w w' f h₁ h₂ => ?_⟩
  · rw [hf.old w (.inr hw), h.absent w (Nat.le_trans hf.grow hw)]
  · rw [hf.fibers] at he
    exact hf.extends.isTask (h.queue e he f hef)
  · rcases hf.worker w with hw | ⟨-, tid, hw⟩ <;> rw [hw]
    · exact (h.worker w).mono hf.extends
    · exact .blank _ _ rfl rfl rfl
  · exact h.cb_inj w w' f (hf.of_worker Worker.cbFiber (fun _ => rfl) h₁)
      (hf.of_worker Worker.cbFiber (fun _ => rfl) h₂)
  · exact h.idle_inj w w' f (hf.of_worker Worker.idleFiber (fun _ => rfl) h₁)
      (hf.of_worker Worker.idleFiber (fun _ => rfl) h₂)

/-- What is queued stays a task. -/
theorem WellFormed.queue_mono {s t : State K} (h : WellFormed s) (hext : Extends s t) :
    ∀ e ∈ s.fibers, ∀ f, e.task = .fiber f → t.IsTask f :=
  fun e he f hf => hext.isTask (h.queue e he f hf)

/-- `cb_fiber.reset()` in the bookkeeping of the callback branch. -/
theorem cbFiber_of_dropped {b : Branch} {o : Option Nat} {g : Nat}
    (h : (if b = .cb then none else o) = some g) : o = some g := by
  split at h
  · cases h
  · exact h

/-- Every step keeps the invariant. -/
theorem WellFormed.move {s s' : State K} {l : Label K} (h : WellFormed s) (hm : Move P s l s') :
    WellFormed s' := by
  have hsame : Extends s s := ⟨Nat.le_refl _, fun _ _ => rfl⟩
  cases hm with
  | fails _ => exact ⟨h.absent, h.queue, h.worker, h.cb_inj, h.idle_inj⟩
  | owner _ hf => exact h.owner hf
  | @extSchedule fc thread hfc =>
    exact ⟨h.absent, h.schedule_queue hfc thread, h.worker, h.cb_inj, h.idle_inj⟩
  | @extNew k =>
    have hext := extends_alloc s (Fiber.new (.user k) false)
    exact ⟨h.absent, fun e he f hf => hext.isTask (h.queue e he f hf),
      fun w => (h.worker w).mono hext, h.cb_inj, h.idle_inj⟩
  | @prelude w hpc =>
    have hext := extends_alloc s (Fiber.new P.idle true)
    refine h.setWorker (w := w) (by simp [hpc]) hext rfl rfl
      (h.queue_mono hext) ?_ (fun f hf => .inr hf)
      (fun f hf => .inl (Option.some.inj hf).symm)
    -- the new fiber is the idle fiber of this worker
    have hw := ((h.worker w).release .scan rfl (.inr rfl)).mono hext
    refine ⟨hw.check, hw.task, hw.cbBranch, by simp, hw.cb, ?_, by simp⟩
    rintro f ⟨⟩
    exact ⟨Nat.lt_succ_self _, by simp [State.setWorker, Fiber.new]⟩
  | @scanNone w hpc _ =>
    exact h.setPC (by simp [hpc]) hsame rfl rfl h.queue ((h.worker w).release _ rfl (.inr rfl))
  | @scanSome w e q hpc hq =>
    obtain ⟨pre, post, hfib, rfl, -, -⟩ := scanQueue_some hq
    have hmem : ∀ x ∈ pre ++ post, x ∈ s.fibers := by
      intro x hx
      rw [hfib]
      rcases List.mem_append.mp hx with hx | hx
      · exact List.mem_append_left _ hx
      · exact List.mem_append_right _ (List.mem_cons_of_mem _ hx)
    refine h.setPC (by simp [hpc]) hsame rfl rfl (fun x hx => h.queue x (hmem x hx)) ?_
    -- a fiber taken from the queue is a task, as all that is queued
    have hw := (h.worker w).release .scan rfl (.inr rfl)
    refine ⟨fun f hf => ?_, by simp, by simp, by simp, hw.cb, hw.idle, by simp⟩
    have hf : PC.check (some e.task) = .check (some (.fiber f)) := hf
    exact h.queue e (by simp [hfib]) f (by simpa using hf)
  | @checkNone w hpc =>
    exact h.setPC (by simp [hpc]) hsame rfl rfl h.queue ((h.worker w).release _ rfl (.inr rfl))
  | @checkDone w f hpc _ =>
    exact h.setPC (by simp [hpc]) hsame rfl rfl h.queue ((h.worker w).release _ rfl (.inr rfl))
  | @checkFiber w f hpc _ =>
    have hw := h.worker w
    refine h.setPC (by simp [hpc]) hsame rfl rfl h.queue
      ⟨by simp, fun g ph hg => ?_, by simp, by simp, hw.cb, hw.idle, ?_⟩
    · cases hg
      exact hw.check f hpc
    · rintro b g ph ⟨⟩
      trivial
  | @checkCb w k hpc =>
    exact h.setPC (by simp [hpc]) hsame rfl rfl h.queue ((h.worker w).release _ rfl (.inr rfl))
  | @prepareOld w k g hpc hg _ =>
    have hext : Extends s (s.setFiber g ((s.heap g).reset (some (.user k)))) :=
      extends_setFiber s g rfl
    have hw := (h.worker w).mono hext
    refine h.setPC (by simp [hpc]) hext rfl rfl
      (h.queue_mono hext)
      ⟨by simp, by simp, fun f ph hf => ?_, by simp, hw.cb, hw.idle, ?_⟩
    · cases hf
      exact hg
    · rintro b f ph ⟨⟩
      trivial
  | @prepareNew w k hpc _ =>
    have hext := extends_alloc s (Fiber.new (.user k) false)
    refine h.setWorker (w := w) (by simp [hpc]) hext rfl rfl
      (h.queue_mono hext)
      ⟨by simp, by simp, ?_, by simp, ?_, ((h.worker w).mono hext).idle, ?_⟩
      (fun f hf => .inl (Option.some.inj hf).symm) (fun f hf => .inr hf)
    · rintro f ph ⟨⟩
      rfl
    -- the new fiber is a task, and its `cb_fiber`
    · rintro f ⟨⟩
      exact ⟨Nat.lt_succ_self _, by simp [State.setWorker, Fiber.new]⟩
    · rintro b f ph ⟨⟩
      trivial
  | @idleExit w f hpc _ _ =>
    exact h.setPC (by simp [hpc]) hsame rfl rfl h.queue ((h.worker w).release _ rfl (.inr rfl))
  | @idleEnter w f hpc hidle _ =>
    have hw := h.worker w
    refine h.setPC (by simp [hpc]) hsame rfl rfl h.queue
      ⟨by simp, by simp, by simp, fun g ph hg => ?_, hw.cb, hw.idle, ?_⟩
    · cases hg
      exact hidle
    · rintro b g ph ⟨⟩
      trivial
  | @fiber w b f ph x ph' hpc hx =>
    have hext : Extends s (s.setFiber f x) := extends_setFiber s f hx.idle_eq
    -- only the callback branch comes to recycle
    have hfits := hx.fits ((h.worker w).fits b f ph hpc)
    exact h.setPC (by simp [hpc]) hext rfl rfl
      (h.queue_mono hext) (((h.worker w).phase hpc ph' hfits).mono hext)
  | @decrement w b f hpc hb =>
    exact h.setPC (by simp [hpc]) hsame rfl rfl h.queue ((h.worker w).phase hpc _ hb)
  | @requeue w b f hpc =>
    have hw := h.worker w
    refine h.setWorker (w := w) (by simp [hpc]) hsame rfl rfl ?_
      (hw.release .scan rfl (by split <;> simp)) ?_ (fun g hg => .inr hg)
    · intro e he g hg
      rw [State.setWorker_fibers, State.schedule_fibers, mem_scheduleNoLock] at he
      rcases he with he | ⟨t, ht, rfl⟩
      · exact h.queue e he g hg
      · -- the idle branch does not requeue
        have hb : b ≠ .idle := hw.fits b f _ hpc
        have hf := h.on_lt hpc
        cases ht
        cases hg
        exact ⟨hf.1, by simpa [hb] using hf.2⟩
    · exact fun g hg => .inr (cbFiber_of_dropped hg)
  | @leave w b f hpc _ _ =>
    exact h.setPC (by simp [hpc]) hsame rfl rfl h.queue ((h.worker w).release _ rfl (.inr rfl))
  | @setHold w b f hpc =>
    have hext : Extends s (s.setState f .hold) := extends_setFiber s f rfl
    exact h.setWorker (w := w) (by simp [hpc]) hext rfl rfl (h.queue_mono hext)
      (((h.worker w).release .scan rfl (by split <;> simp)).mono hext)
      (fun g hg => .inr (cbFiber_of_dropped hg)) (fun g hg => .inr hg)
  | @recycle w b f hpc _ =>
    have hext : Extends s (s.setFiber f ((s.heap f).reset none)) := extends_setFiber s f rfl
    exact h.setPC (by simp [hpc]) hext rfl rfl
      (h.queue_mono hext)
      (((h.worker w).release _ rfl (.inr rfl)).mono hext)
  | @code w b f c c' a x ph' hpc _ hx _ =>
    have hext : Extends s (s.setFiber f x) := extends_setFiber s f hx.idle_eq
    exact h.setPC (by simp [hpc]) hext rfl rfl
      (h.queue_mono hext) (((h.worker w).phase hpc ph' hx.fits).mono hext)
  | @codeSchedule w b f c c' fc thread hpc _ hfc =>
    exact h.setPC (by simp [hpc]) hsame rfl rfl (h.schedule_queue hfc thread)
      ((h.worker w).phase hpc _ trivial)
  | @codeNew w b f c c' k hpc _ =>
    have hext := extends_alloc s (Fiber.new (.user k) false)
    exact h.setPC (by simp [hpc]) hext rfl rfl
      (h.queue_mono hext) (((h.worker w).phase hpc (.inside (.body c')) trivial).mono hext)

/-- Before `start` there are no workers and no fibers. -/
theorem wellFormed_initial (threads : Nat) (useCaller : Bool) (caller : Int) :
    WellFormed (.initial threads useCaller caller : State K) where
  absent _ _ := rfl
  queue e he := by cases he
  worker _ := .blank _ _ rfl rfl rfl
  cb_inj w w' f h := by cases h
  idle_inj w w' f h := by cases h

/-- Every reachable state is well formed, for all code and any number of workers. -/
theorem wellFormed_reachable {threads : Nat} {useCaller : Bool} {caller : Int} {s : State K}
    (h : (scheduler P threads useCaller caller).Reachable s) : WellFormed s :=
  LTS.System.invariant (wellFormed_initial threads useCaller caller)
    (fun _ _ _ hs hstep => hs.move (step_move hstep).2) s h

end Gwn.Scheduler
