import Gwn.Scheduler.Jobs

/-! # Drained at stop

    A worker leaves `run` only with nothing left in the queue that it could take
    (`Joins.leaving`), `stop` waits for every worker (`Joins.waited`), and where it
    has none to wait for it has seen an empty queue. So when `stop` returns, no
    callback is pending, and each has performed its script (`drained_at_stop`). -/

namespace Gwn.Scheduler

open LTS

section workers
variable {K : Type} {P : Prog K}

/-! ### Leaving `run` -/

/-- Worker `w` has left `run`, or will leave it without another look at the queue. -/
def State.Leaving (s : State K) (w : Nat) : Prop :=
  match (s.workers w).pc with
  | .exited => True
  | .check none | .idleTest => ∃ f, (s.workers w).idleFiber = some f ∧ (s.heap f).state = .term
  | _ => False

/-- Whether a worker is leaving depends on it and on the fibers. -/
theorem Leaving.congr {s t : State K} {w : Nat} (hworker : t.workers w = s.workers w)
    (hheap : t.heap = s.heap) (h : t.Leaving w) : s.Leaving w := by
  unfold State.Leaving at h ⊢
  rwa [hworker, hheap] at h

/-- A worker that has left stays away. -/
theorem exited_persist {s s' : State K} {l : Label K} (hstep : step P s l = some s') {v : Nat}
    (hlt : v < s.nworkers) (hv : (s.workers v).pc = .exited) : (s'.workers v).pc = .exited := by
  have hm := (step_move hstep).2
  have other : ∀ {w : Nat} {y : Worker K}, l = .work w ∨ (∃ a, l = .act w a) →
      s'.workers = Function.update s.workers w y → (s'.workers v).pc = .exited := by
    intro w y hl hworkers
    have hvw : v ≠ w := by
      rintro rfl
      exact step_not_exited hstep hl hv
    rw [hworkers, Function.update_of_ne hvw, hv]
  cases hm with
  | fails _ => exact hv
  | owner _ hf => rw [hf.old v (.inl hlt), hv]
  | extSchedule _ => exact hv
  | extNew => exact hv
  | code _ _ _ _ => exact other (.inr ⟨_, rfl⟩) rfl
  | codeSchedule _ _ _ => exact other (.inr ⟨_, rfl⟩) rfl
  | codeNew _ _ => exact other (.inr ⟨_, rfl⟩) rfl
  | _ => exact other (.inl rfl) rfl

/-! ### What `stop` waits for -/

/-- The workers whose end the owner waits for. -/
def Ctl.waitsFor : Ctl → List Nat
  | .inRoot w => [w]
  | .join ws => ws
  | _ => []

/-- `start` and `stop`, as far as the end of the workers and the queue depend on them. -/
structure Joins (s : State K) : Prop where
  autoStop : s.ctl ≠ .user → s.autoStop = true
  /-- `start` has been called when `stop` is. -/
  started : s.stoppingFlag = false ∨ s.autoStop = true → s.threadCount ≤ s.nworkers
  threads : s.threadCount = 0 → s.threads = []
  rootless : s.rootFiber = none → 0 < s.threadCount
  lone : s.ctl = .singleSet ∨ s.ctl = .singleTest → s.threadCount = 0
  inRoot : ∀ w, s.ctl = .inRoot w → w < s.nworkers
  joining : ∀ ws, s.ctl = .join ws → s.threads = []
  waited : ∀ w, w < s.nworkers →
    (s.workers w).pc = .exited ∨ w ∈ s.threads ∨ w ∈ s.ctl.waitsFor
  /-- The last worker to leave leaves nothing behind. -/
  leaving : 0 < s.nworkers → (∀ w, w < s.nworkers → s.Leaving w) → s.fibers = []
  /-- A scheduler without workers is left with nothing in its queue. -/
  unmanned :
    s.ctl = .swapThreads ∨ (∃ ws, s.ctl = .join ws) → s.nworkers = 0 → s.fibers = []
  returned : s.ctl = .user → s.autoStop = true → s.threads = [] ∧ s.fibers = []

/-- After `stop` has returned no worker is left in `run`. -/
theorem Joins.all_exited {s : State K} (h : Joins s) (hctl : s.ctl = .user)
    (hauto : s.autoStop = true) : ∀ w, w < s.nworkers → (s.workers w).pc = .exited := by
  intro w hw
  rcases h.waited w hw with hexit | hmem | hmem
  · exact hexit
  · rw [(h.returned hctl hauto).1] at hmem
    cases hmem
  · rw [hctl] at hmem
    cases hmem

/-- With a count of at least one there is a thread to be made, or a root fiber. -/
theorem joins_initial {threads : Nat} (hthreads : 0 < threads) (useCaller : Bool) (caller : Int) :
    Joins (.initial threads useCaller caller : State K) where
  autoStop h := absurd rfl h
  started h := by rcases h with h | h <;> cases h
  threads _ := rfl
  rootless h := by
    cases useCaller with
    | false => exact hthreads
    | true => cases h
  lone h := by rcases h with h | h <;> cases h
  inRoot w h := by cases h
  joining ws h := by cases h
  waited w h := absurd h (Nat.not_lt_zero w)
  leaving h := absurd h (Nat.lt_irrefl 0)
  unmanned h := by rcases h with h | ⟨ws, h⟩ <;> cases h
  returned _ h := by cases h

/-- The owner's steps do not let the last worker leave. -/
theorem Joins.owner_leaving {s s' : State K} (h : Joins s) (hf : OwnerFrame s s')
    (hpos : 0 < s'.nworkers) (hall : ∀ w, w < s'.nworkers → s'.Leaving w) : s'.fibers = [] := by
  -- a worker that is added is at the start of `run`
  have hn : s'.nworkers = s.nworkers := by
    by_contra hne
    have hlt : s.nworkers < s'.nworkers := Nat.lt_of_le_of_ne hf.grow (Ne.symm hne)
    obtain ⟨tid, htid⟩ := hf.fresh s.nworkers (Nat.le_refl _) hlt
    have hleave := hall s.nworkers hlt
    rw [State.Leaving, htid] at hleave
    exact hleave
  rw [hf.fibers]
  apply h.leaving (hn ▸ hpos)
  intro w hw
  exact Leaving.congr (hf.old w (.inl hw)) hf.heap (hall w (hn ▸ hw))

/-- `start` makes the threads that `stop` will join. -/
theorem Joins.start {s s' : State K} {tids : List Int} (h : Joins s) (hauto : s.autoStop = false)
    (hstart : startStep s tids = some s') : Joins s' := by
  have hleaving := h.owner_leaving (startStep_frame hstart)
  obtain ⟨hctl, hlength, hmove⟩ := startStep_move hstart
  cases hmove with
  | running _ => exact h
  | fails _ _ =>
    exact ⟨h.autoStop, h.started, h.threads, h.rootless, h.lone, h.inRoot, h.joining, h.waited,
      h.leaving, h.unmanned, h.returned⟩
  | starts _ hempty =>
    refine ⟨h.autoStop, fun _ => ?_, fun hzero => ?_, h.rootless, h.lone, fun w hw => ?_,
      fun ws hws => ?_, fun w hw => ?_, hleaving, fun hswap => ?_, fun _ ha => ?_⟩
    · show s.threadCount ≤ s.nworkers + tids.length
      omega
    · show List.range' s.nworkers tids.length = []
      rw [hlength, show s.threadCount = 0 from hzero]
      rfl
    · exact absurd (hctl.symm.trans hw) nofun
    · exact absurd (hctl.symm.trans hws) nofun
    · have hw : w < s.nworkers + tids.length := hw
      by_cases hnew : s.nworkers ≤ w
      · refine .inr (.inl ?_)
        show w ∈ List.range' s.nworkers tids.length
        rw [List.mem_range'_1]
        exact ⟨hnew, hw⟩
      · -- the workers of before have left
        have hexit : (s.workers w).pc = .exited := by
          rcases h.waited w (by omega) with hexit | hmem | hmem
          · exact hexit
          · rw [hempty] at hmem
            cases hmem
          · rw [hctl] at hmem
            cases hmem
        refine .inl ?_
        rw [State.started_old (.inl (by omega)), hexit]
    · rcases hswap with hswap | ⟨ws, hswap⟩ <;> exact absurd (hctl.symm.trans hswap) nofun
    · exact absurd (hauto.symm.trans ha) nofun

/-- `stop` is called on a scheduler that has been started. -/
theorem Joins.stop {s s' : State K} (h : Joins s) (hflag : s.stoppingFlag = false)
    (hstop : stopStep s = some s') : Joins s' := by
  have hleaving := h.owner_leaving (stopStep_frame hstop)
  obtain ⟨hctl, rfl⟩ := stopStep_eq hstop
  refine ⟨fun _ => rfl, fun _ => h.started (.inl hflag), h.threads, h.rootless,
    nofun, nofun, nofun, fun w hw => ?_, hleaving, nofun, nofun⟩
  have hwaited := h.waited w hw
  rwa [hctl] at hwaited

/-- The owner goes on inside `stop`, and forgets no worker that it waits for. -/
theorem Joins.goto {s : State K} (h : Joins s) (hctl : s.ctl ≠ .user) (c : Ctl) (flag : Bool)
    (hlone : c = .singleSet ∨ c = .singleTest → s.threadCount = 0)
    (hroot : ∀ w, c ≠ .inRoot w) (hjoin : ∀ ws, c = .join ws → s.threads = [])
    (hwait : ∀ w, w ∈ s.ctl.waitsFor → (s.workers w).pc = .exited ∨ w ∈ c.waitsFor)
    (hunmanned : c = .swapThreads ∨ (∃ ws, c = .join ws) → s.nworkers = 0 → s.fibers = [])
    (hreturned : c = .user → s.threads = [] ∧ s.fibers = []) :
    Joins { s with ctl := c, stoppingFlag := flag } where
  autoStop _ := h.autoStop hctl
  started _ := h.started (.inr (h.autoStop hctl))
  threads := h.threads
  rootless := h.rootless
  lone := hlone
  inRoot w hw := absurd hw (hroot w)
  joining := hjoin
  waited w hw := by
    rcases h.waited w hw with hexit | hmem | hmem
    · exact .inl hexit
    · exact .inr (.inl hmem)
    · exact (hwait w hmem).imp_right .inr
  leaving := h.leaving
  unmanned := hunmanned
  returned hc _ := hreturned hc

/-- The same at a place where the owner waits for nobody. -/
theorem Joins.advance {s : State K} (h : Joins s) (hctl : s.ctl ≠ .user)
    (hnobody : s.ctl.waitsFor = []) (c : Ctl) (flag : Bool)
    (hlone : c = .singleSet ∨ c = .singleTest → s.threadCount = 0)
    (hroot : ∀ w, c ≠ .inRoot w) (hjoin : ∀ ws, c = .join ws → s.threads = [])
    (hunmanned : c = .swapThreads ∨ (∃ ws, c = .join ws) → s.nworkers = 0 → s.fibers = [])
    (hreturned : c = .user → s.threads = [] ∧ s.fibers = []) :
    Joins { s with ctl := c, stoppingFlag := flag } := by
  apply h.goto hctl c flag hlone hroot hjoin _ hunmanned hreturned
  intro w hw
  rw [hnobody] at hw
  cases hw

/-- A failed assertion ends the process where it is. -/
theorem Joins.fails {s : State K} (h : Joins s) (e : Fault) : Joins { s with fault := some e } :=
  ⟨h.autoStop, h.started, h.threads, h.rootless, h.lone, h.inRoot, h.joining, h.waited, h.leaving,
    h.unmanned, h.returned⟩

/-- `stopping()` answers true with an empty queue only. -/
theorem State.queue_of_stopping {s : State K} (h : s.stopping = true) : s.fibers = [] := by
  simp only [State.stopping, Bool.and_eq_true, List.isEmpty_iff] at h
  exact h.1.2

/-- With no root fiber to call and no thread to join there is nothing queued. -/
theorem Joins.rootTest {s : State K} (h : Joins s) (hctl : s.ctl = .rootTest)
    (hroot : s.rootFiber = none ∨ s.stopping = true) (hzero : s.nworkers = 0) :
    s.fibers = [] := by
  have hauto : s.autoStop = true := h.autoStop (by rw [hctl]; nofun)
  have hstarted := h.started (.inr hauto)
  -- without workers there is a root fiber, so `stopping()` has answered true
  rcases hroot with hnone | hstop
  · have hthreads := h.rootless hnone
    omega
  · exact State.queue_of_stopping hstop

/-- `m_rootFiber->call()` adds the caller's thread to the workers, and the owner waits for it. -/
theorem Joins.callRoot {s s' : State K} (h : Joins s) (hctl : s.ctl = .callRoot)
    (hleaving : 0 < s'.nworkers → (∀ w, w < s'.nworkers → s'.Leaving w) → s'.fibers = [])
    (hs' : s' = { s.setWorker s.nworkers (.fresh s.rootThread) with
      rootFiber := some .exec, nworkers := s.nworkers + 1, ctl := .inRoot s.nworkers }) :
    Joins s' := by
  have hauto : s.autoStop = true := h.autoStop (by rw [hctl]; nofun)
  have hstarted := h.started (.inr hauto)
  subst hs'
  refine ⟨fun _ => hauto, fun _ => Nat.le_succ_of_le hstarted, h.threads, nofun, nofun, ?_, nofun,
    fun w hw => ?_, hleaving, nofun, nofun⟩
  · rintro w ⟨⟩
    exact Nat.lt_succ_self _
  · have hw : w < s.nworkers + 1 := hw
    by_cases hnew : w = s.nworkers
    · rw [hnew]
      exact .inr (.inr (List.mem_singleton_self _))
    · have hsame : ((s.setWorker s.nworkers (.fresh s.rootThread)).workers w) = s.workers w :=
        s.setWorker_ne _ _ _ hnew
      rcases h.waited w (by omega) with hexit | hmem | hmem
      · exact .inl (by rw [← hexit, ← hsame])
      · exact .inr (.inl hmem)
      · rw [hctl] at hmem
        cases hmem

/-- The root fiber has returned from `run`. -/
theorem Joins.rootReturned {s : State K} {w : Nat} (h : Joins s) (hctl : s.ctl = .inRoot w)
    (hexit : (s.workers w).pc = .exited) :
    Joins { s with rootFiber := some .term, ctl := .swapThreads } := by
  have hpos : w < s.nworkers := h.inRoot w hctl
  have hgoto : Joins { s with ctl := .swapThreads, stoppingFlag := s.stoppingFlag } := by
    refine h.goto (by rw [hctl]; nofun) .swapThreads _ nofun nofun nofun (fun v hv => ?_)
      (fun _ hzero => by omega) nofun
    rw [hctl] at hv
    rw [List.mem_singleton.mp hv]
    exact .inl hexit
  exact ⟨hgoto.autoStop, hgoto.started, hgoto.threads, nofun, hgoto.lone, hgoto.inRoot,
    hgoto.joining, hgoto.waited, hgoto.leaving, hgoto.unmanned, hgoto.returned⟩

/-- From now on the owner waits for the threads one by one. -/
theorem Joins.swapThreads {s : State K} (h : Joins s) (hctl : s.ctl = .swapThreads) :
    Joins { s with ctl := .join s.threads, threads := [] } := by
  have hauto : s.autoStop = true := h.autoStop (by rw [hctl]; nofun)
  refine ⟨fun _ => hauto, h.started, fun _ => rfl, h.rootless, nofun, nofun, fun _ _ => rfl,
    fun w hw => ?_, h.leaving, fun _ => h.unmanned (.inl hctl), nofun⟩
  rcases h.waited w hw with hexit | hmem | hmem
  · exact .inl hexit
  · exact .inr (.inr hmem)
  · rw [hctl] at hmem
    cases hmem

/-- When all threads are joined, all workers have left, and the queue is empty. -/
theorem Joins.joined {s : State K} (h : Joins s) (hctl : s.ctl = .join []) :
    s.threads = [] ∧ s.fibers = [] := by
  have hthreads : s.threads = [] := h.joining [] hctl
  refine ⟨hthreads, ?_⟩
  by_cases hzero : s.nworkers = 0
  · exact h.unmanned (.inr ⟨[], hctl⟩) hzero
  · apply h.leaving (by omega)
    intro w hw
    rcases h.waited w hw with hexit | hmem | hmem
    · rw [State.Leaving, hexit]
      trivial
    · rw [hthreads] at hmem
      cases hmem
    · rw [hctl] at hmem
      cases hmem

/-- One thread has been joined. -/
theorem Joins.joinNext {s : State K} {w : Nat} {ws : List Nat} (h : Joins s)
    (hctl : s.ctl = .join (w :: ws)) (hexit : (s.workers w).pc = .exited) :
    Joins { s with ctl := .join ws } := by
  have hthreads : s.threads = [] := h.joining (w :: ws) hctl
  refine h.goto (by rw [hctl]; nofun) (.join ws) s.stoppingFlag nofun nofun (fun _ _ => hthreads)
    (fun v hv => ?_) (fun _ => h.unmanned (.inr ⟨w :: ws, hctl⟩)) nofun
  rw [hctl] at hv
  rcases List.mem_cons.mp hv with rfl | hv
  · exact .inl hexit
  · exact .inr hv

/-- One case for each place of the owner inside `stop`. -/
theorem Joins.ctl {s s' : State K} (h : Joins s) (hstep : ctlStep s = some s') : Joins s' := by
  have hleaving := h.owner_leaving (ctlStep_frame hstep)
  cases ctlStep_move hstep with
  | single hctl hsingle =>
    exact h.advance (by rw [hctl]; nofun) (by rw [hctl]; rfl) .singleSet _
      (fun _ => hsingle.1) nofun
      nofun nofun nofun
  | notSingle hctl _ =>
    exact h.advance (by rw [hctl]; nofun) (by rw [hctl]; rfl) .setStopping _ nofun nofun nofun nofun
      nofun
  | singleSet hctl =>
    exact h.advance (by rw [hctl]; nofun) (by rw [hctl]; rfl) .singleTest true
      (fun _ => h.lone (.inl hctl)) nofun nofun nofun nofun
  | stopping hctl hstop =>
    -- a lone caller thread has no threads to join
    exact h.advance (by rw [hctl]; nofun) (by rw [hctl]; rfl) .user _ nofun nofun nofun nofun
      fun _ => ⟨h.threads (h.lone (.inr hctl)), State.queue_of_stopping hstop⟩
  | notStopping hctl _ =>
    exact h.advance (by rw [hctl]; nofun) (by rw [hctl]; rfl) .setStopping _ nofun nofun nofun nofun
      nofun
  | setStopping hctl =>
    exact h.advance (by rw [hctl]; nofun) (by rw [hctl]; rfl) .rootTest true nofun nofun nofun nofun
      nofun
  | toCall hctl _ _ =>
    exact h.advance (by rw [hctl]; nofun)
      (by rw [hctl]; rfl) .callRoot _ nofun nofun nofun nofun nofun
  | noCall hctl hroot =>
    exact h.advance (by rw [hctl]; nofun) (by rw [hctl]; rfl) .swapThreads _ nofun nofun nofun
      (fun _ hzero => h.rootTest hctl hroot hzero) nofun
  | callExec _ _ => exact h.fails .callExec
  | call hctl _ => exact h.callRoot hctl hleaving rfl
  | neverReach _ _ _ => exact h.fails .rootNeverReach
  | returned w hctl hexit => exact h.rootReturned hctl hexit
  | swapThreads hctl => exact h.swapThreads hctl
  | joined hctl =>
    exact h.advance (by rw [hctl]; nofun) (by rw [hctl]; rfl) .user _ nofun nofun nofun nofun
      fun _ => h.joined hctl
  | join w ws hctl hexit => exact h.joinNext hctl hexit

end workers

section callbacks
variable {C : Type} {prog : C → Body C}

/-! ### The last worker -/

/-- A worker that finds nothing to take finds nothing at all. -/
theorem Tidy.scan_none {s : State (Cont C)} (h : Tidy s) {tid : Int}
    (hscan : scanQueue s.heap tid s.fibers = none) : s.fibers = [] := by
  rw [List.eq_nil_iff_forall_not_mem]
  intro e he
  have hskip := scanQueue_none hscan e he
  unfold FiberAndThread.skipped at hskip
  have hthread : ¬ (e.thread ≠ -1 ∧ e.thread ≠ tid) := fun hne => hne.1 (h.thread e he)
  rw [if_neg hthread] at hskip
  cases htask : e.task with
  | fiber f =>
    have hready := h.ready e he f htask
    simp [htask, hready] at hskip
  | cb k => simp [htask] at hskip

/-- A worker that is about to leave has found the queue empty, or was about to before. -/
theorem Employing.leaving [DecidableEq C] {s s' : State (Cont C)} {owner : Nat → Option Nat}
    (h : Employing s owner) {l : Label (Cont C)} {w : Nat}
    (hl : l = .work w ∨ ∃ a, l = .act w a)
    (hm : Move (callbacks prog) s l s') (hw : s'.Leaving w) :
    s'.fibers = [] ∨
      s.Leaving w ∧ s'.fibers = s.fibers ∧ s'.heap = s.heap ∧
        ∀ v, v ≠ w → s'.workers v = s.workers v := by
  -- after any other step the worker is elsewhere in `run`
  have other : ∀ {v : Nat} {y : Worker (Cont C)}, (l = .work v ∨ ∃ a, l = .act v a) →
      s'.workers = Function.update s.workers v y → (y.pc ≠ .exited ∧ y.pc ≠ .check none ∧
        y.pc ≠ .idleTest) → False := by
    intro v y hv hworkers hy
    have hvw : v = w := by
      rcases hl with rfl | ⟨a, rfl⟩ <;> rcases hv with hv | ⟨a', hv⟩ <;> cases hv <;> rfl
    unfold State.Leaving at hw
    rw [hworkers, hvw, Function.update_self] at hw
    split at hw
    · next hpc => exact hy.1 hpc
    · next hpc => exact hy.2.1 hpc
    · next hpc => exact hy.2.2 hpc
    · exact hw
  have hsame : ∀ {v : Nat}, l = .work v → v = w := by
    intro v hv
    rcases hl with rfl | ⟨a, rfl⟩ <;> cases hv
    rfl
  cases hm with
  | fails _ => exact .inr ⟨hw, rfl, rfl, fun _ _ => rfl⟩
  | owner hown _ => rcases hl with rfl | ⟨a, rfl⟩ <;> simp at hown
  | extSchedule _ => rcases hl with hl | ⟨a, hl⟩ <;> cases hl
  | extNew => rcases hl with hl | ⟨a, hl⟩ <;> cases hl
  | scanNone _ hscan => exact .inl (h.tidy.scan_none hscan)
  | @checkNone v hpc =>
    obtain rfl := hsame rfl
    refine .inr ⟨?_, rfl, rfl, fun u hu => s.setPC_ne v u _ hu⟩
    unfold State.Leaving at hw ⊢
    rw [s.setPC_self] at hw
    rw [hpc]
    exact hw
  | @checkDone v f hpc hfin =>
    rw [h.not_checkDone hpc] at hfin
    cases hfin
  | @idleExit v f hpc hidle hst =>
    obtain rfl := hsame rfl
    refine .inr ⟨?_, rfl, rfl, fun u hu => s.setPC_ne v u _ hu⟩
    unfold State.Leaving
    rw [hpc]
    exact ⟨f, hidle, hst⟩
  | code _ _ _ _ => exact (other (.inr ⟨_, rfl⟩) rfl ⟨nofun, nofun, nofun⟩).elim
  | codeSchedule _ _ _ => exact (other (.inr ⟨_, rfl⟩) rfl ⟨nofun, nofun, nofun⟩).elim
  | codeNew _ _ => exact (other (.inr ⟨_, rfl⟩) rfl ⟨nofun, nofun, nofun⟩).elim
  | _ => exact (other (.inl rfl) rfl ⟨nofun, nofun, nofun⟩).elim

/-- As long as `m_autoStop` is not set, no worker is about to leave. -/
theorem Employing.not_leaving {s : State (Cont C)} {owner : Nat → Option Nat}
    (h : Employing s owner) (hauto : s.autoStop = false)
    (hexit : ∀ w, w < s.nworkers → (s.workers w).pc ≠ .exited) {w : Nat}
    (hw : w < s.nworkers) :
    ¬ s.Leaving w := by
  intro hleave
  have hends : ∀ f, (s.workers w).pc.hand = none → (s.workers w).idleFiber = some f →
      (s.heap f).state ≠ .term := by
    intro f hhand hf hst
    have ha := h.idle.answered h.wf hhand hf hst
    rw [hauto] at ha
    cases ha
  unfold State.Leaving at hleave
  split at hleave
  · next hpc => exact hexit w hw hpc
  · next hpc =>
    obtain ⟨f, hf, hst⟩ := hleave
    exact hends f (by rw [hpc]; rfl) hf hst
  · next hpc =>
    obtain ⟨f, hf, hst⟩ := hleave
    exact hends f (by rw [hpc]; rfl) hf hst
  · exact hleave

/-! ### Drained -/

/-- What an orderly run has established about its end. -/
structure Draining (prog : C → Body C) (p : State (Cont C) × Record C) : Prop where
  employing : Employing p.1 p.2.owner
  joins : Joins p.1
  /-- No worker leaves before `stop` is called. -/
  stays : p.1.autoStop = false → ∀ w, w < p.1.nworkers → (p.1.workers w).pc ≠ .exited

/-- Before `stop` no worker leaves `run`. -/
theorem Draining.stays_step [DecidableEq C] {s s' : State (Cont C)} {r : Record C}
    {l : Label (Cont C)} (h : Draining prog (s, r)) (hstep : step (callbacks prog) s l = some s')
    (hauto : s'.autoStop = false) : ∀ w, w < s'.nworkers → (s'.workers w).pc ≠ .exited := by
  have hauto' : s.autoStop = false := by
    by_contra hne
    have htrue : s.autoStop = true := by simpa using hne
    have hpersist := autoStop_persist hstep htrue
    rw [hauto] at hpersist
    cases hpersist
  intro w hw hpc
  rcases (step_move hstep).2.exited hw hpc with ⟨hlt, hpc'⟩ | ⟨f, hpc', hf, hst⟩
  · exact h.stays hauto' w hlt hpc'
  · have ha := h.employing.idle.answered h.employing.wf (by rw [hpc']; rfl) hf hst
    rw [hauto'] at ha
    cases ha

/-- The steps of the workers and of other threads. -/
theorem Draining.joins_step [DecidableEq C] {s s' : State (Cont C)} {r : Record C}
    {l : Label (Cont C)} (h : Draining prog (s, r)) (hord : Orderly prog (s, r) l)
    (hl : l.notOwner = true) (hstep : step (callbacks prog) s l = some s') : Joins s' := by
  obtain ⟨he, hj, hstays⟩ := h
  have hm := (step_move hstep).2
  have hsame := hm.ownerSame hl
  -- either a worker that has not left moves, or a callback is scheduled before `stop`
  have hmover : s.autoStop = false ∧ s'.workers = s.workers ∧ s'.heap = s.heap ∨
      ∃ w, (l = .work w ∨ ∃ a, l = .act w a) ∧ (s.workers w).pc ≠ .exited := by
    cases l with
    | ext a =>
      obtain ⟨hauto, k, rfl⟩ := orderly_ext hord
      cases hm with
      | fails hf => cases hf
      | owner hown _ => simp at hown
      | extSchedule _ => exact .inl ⟨hauto, rfl, rfl⟩
    | work w => exact .inr ⟨w, .inl rfl, step_not_exited hstep (.inl rfl)⟩
    | act w a => exact .inr ⟨w, .inr ⟨a, rfl⟩, step_not_exited hstep (.inr ⟨a, rfl⟩)⟩
    | _ => cases hl
  refine ⟨?_, ?_, ?_, ?_, ?_, ?_, ?_, fun w hw => ?_, fun hpos hall => ?_, fun hctl hzero => ?_,
    fun hctl hauto => ?_⟩
  · rw [hsame.ctl, hsame.autoStop]
    exact hj.autoStop
  · rw [hsame.stoppingFlag, hsame.autoStop, hsame.threadCount, hsame.nworkers]
    exact hj.started
  · rw [hsame.threadCount, hsame.threads]
    exact hj.threads
  · rw [hsame.rootFiber, hsame.threadCount]
    exact hj.rootless
  · rw [hsame.ctl, hsame.threadCount]
    exact hj.lone
  · rw [hsame.ctl, hsame.nworkers]
    exact hj.inRoot
  · rw [hsame.ctl, hsame.threads]
    exact hj.joining
  · rw [hsame.nworkers] at hw
    rw [hsame.threads, hsame.ctl]
    exact (hj.waited w hw).imp_left (exited_persist hstep hw)
  · rw [hsame.nworkers] at hpos hall
    rcases hmover with ⟨hauto, hworkers, hheap⟩ | ⟨w, hlw, hpc⟩
    · have hleave : s.Leaving 0 := Leaving.congr (congrFun hworkers 0) hheap (hall 0 hpos)
      exact absurd hleave (he.not_leaving hauto (hstays hauto) hpos)
    · rcases he.leaving hlw hm (hall w (he.wf.lt_nworkers hpc)) with hempty |
        ⟨hw, hfib, hheap, hrest⟩
      · exact hempty
      · rw [hfib]
        apply hj.leaving hpos
        intro v hv
        by_cases hvw : v = w
        · rw [hvw]
          exact hw
        · exact Leaving.congr (hrest v hvw) hheap (hall v hv)
  · rw [hsame.ctl] at hctl
    rw [hsame.nworkers] at hzero
    rcases hmover with ⟨hauto, -, -⟩ | ⟨w, -, hpc⟩
    · have hne :
          s.ctl ≠ .user := by rcases hctl with hctl | ⟨ws, hctl⟩ <;> rw [hctl] <;> nofun
      exact absurd ((hj.autoStop hne).symm.trans hauto) nofun
    · have hlt : w < s.nworkers := he.wf.lt_nworkers hpc
      omega
  · rw [hsame.ctl] at hctl
    rw [hsame.autoStop] at hauto
    rcases hmover with ⟨hauto', -, -⟩ | ⟨w, -, hpc⟩
    · exact absurd (hauto.symm.trans hauto') nofun
    · exact absurd (hj.all_exited hctl hauto w (he.wf.lt_nworkers hpc)) hpc

/-- The invariant of every orderly run. -/
theorem draining_reachable [DecidableEq C] {threads : Nat} (hthreads : 0 < threads)
    {useCaller : Bool} {caller : Int} :
    ∀ p, (recorded prog threads useCaller caller).Reachable p → Draining prog p := by
  refine System.invariant_of (J := Orderliness prog) orderliness_reachable ?_ ?_
  · refine ⟨?_, joins_initial hthreads useCaller caller, fun _ w hw =>
      absurd hw (Nat.not_lt_zero w)⟩
    exact (orderliness_reachable _ .init).employing
  · rintro ⟨s, r⟩ l ⟨s', r'⟩ ho h hstep
    obtain ⟨hord, hstep⟩ := System.restrict_step.mp hstep
    obtain ⟨hstep, rfl⟩ := System.withHistory_step.mp hstep
    refine ⟨ho.employing.step hord hstep, ?_, h.stays_step hstep⟩
    cases step_by hstep with
    | other hl _ => exact h.joins_step hord hl hstep
    | start hstart => exact h.joins.start hord hstart
    | stop hstop => exact h.joins.stop hord.2 hstop
    | ctl hctl => exact h.joins.ctl hctl

/-- For any number of workers (threads, the caller or both), any callbacks and any
    interleaving: when `stop` has returned, the queue is empty, every callback ever
    scheduled has been started once and has performed its segments once and in its
    own order, to its end, and what it performed it performed on its own behalf. -/
theorem drained_at_stop [DecidableEq C] {threads : Nat} (hthreads : 0 < threads)
    {useCaller : Bool} {caller : Int} {p : State (Cont C) × Record C}
    (h : (recorded prog threads useCaller caller).Reachable p) (hctl : p.1.ctl = .user)
    (hstopped : p.1.autoStop = true) :
    p.1.fibers = [] ∧
      (∀ t c, p.2.jobs[t]? = some c →
        performed (p.2.log.map fun e => (e.tag, e.ev)) t = (prog c).script) ∧
      ∀ e ∈ p.2.log, e.tag < p.2.jobs.length ∧ e.behalf = some e.tag := by
  have hd := draining_reachable hthreads p h
  have ho := orderliness_reachable p h
  have hfibers := (hd.joins.returned hctl hstopped).2
  have hpending : p.1.pending = 0 := by
    have hqueued : p.1.queued = 0 := by
      unfold State.queued
      rw [hfibers]
      rfl
    have hhands : total (fun x => x.pc.job p.1.heap) p.1.workers p.1.nworkers = 0 := by
      apply total_eq_zero
      intro w hw
      rw [hd.joins.all_exited hctl hstopped w hw]
      rfl
    unfold State.pending
    rw [hqueued, hhands, add_zero]
  refine ⟨hfibers, fun t c hc => ho.tracks.sound.all_performed hpending hc, fun e he => ?_⟩
  exact ⟨ho.tracks.sound.logged_lt (List.mem_map_of_mem he), ho.tracks.behalf e he⟩

end callbacks

/-- Callback 0 schedules callback 1, yields and returns; callback 1 throws. -/
def parentAndChild : Nat → Body Nat
  | 0 => { first := [1], rest := [[]], throws := false }
  | _ => { first := [], rest := [], throws := true }

/-- `stop` is called before anything has run. The caller (worker 1) runs callback 0
    up to its yield, the pool thread (worker 0) callback 1, the caller the rest. -/
def stoppedEarly : List (Label (Cont Nat)) :=
  let started : List (Label (Cont Nat)) :=
    [.start [7], .ext (.schedule (some (.cb (.start parentAndChild 0 0))) (-1)), .stop]
  let yields : List (Label (Cont Nat)) :=
    [.act 1 (.schedule (some (.cb (.start parentAndChild 1 1))) (-1)), .act 1 .yieldToReady]
  let leaves (w : Nat) : List (Label (Cont Nat)) :=
    [.act w (.stopping true), .act w .ret] ++ List.replicate 6 (.work w)
  started ++ List.replicate 4 .ctl ++ List.replicate 8 (.work 1) ++ yields ++
    List.replicate 8 (.work 0) ++ [.act 0 .throw] ++ List.replicate 5 (.work 0) ++
    List.replicate 10 (.work 1) ++ [.act 1 .ret] ++ List.replicate 11 (.work 1) ++ leaves 1 ++
    List.replicate 7 (.work 0) ++ leaves 0 ++ List.replicate 4 .ctl

theorem drained_at_stop_early :
    ∃ p, (recorded parentAndChild 2 true 5).exec
      (.initial 2 true 5, .empty) stoppedEarly = some p ∧
      p.2.jobs = [0, 1] ∧ p.1.fibers = [] ∧
      ∀ t c, p.2.jobs[t]? = some c →
        performed (p.2.log.map fun e => (e.tag, e.ev)) t = (parentAndChild c).script := by
  have hrun : ((recorded parentAndChild 2 true 5).exec (.initial 2 true 5, .empty) stoppedEarly).any
      (fun p => p.1.ctl = .user ∧ p.1.autoStop = true ∧ p.2.jobs = [0, 1]) = true := by decide
  obtain ⟨p, hp, hview⟩ := (Option.any_eq_true _ _).mp hrun
  obtain ⟨hctl, hauto, hjobs⟩ := of_decide_eq_true hview
  have hdrained := drained_at_stop (by decide) (System.reachable_exec .init hp) hctl hauto
  exact ⟨p, hp, hjobs, hdrained.1, hdrained.2.1⟩

end Gwn.Scheduler
