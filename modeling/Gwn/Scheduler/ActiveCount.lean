import Gwn.Scheduler.WellFormed
import Gwn.Framework.Total

/-! # `m_activeThreadCount`

    The counter goes up when `run` takes an entry from the queue and down when
    the entry's `swapIn` has returned. `busyCount` is what it is meant to be:
    the number of workers between the two. An entry whose fiber has finished in
    the meantime is counted and never uncounted: `run` falls through to the
    idle branch. `active_exact_iff` says that this is the only way to lose the
    count; `busyCount_le_active` holds regardless. -/

namespace Gwn.Scheduler

open LTS

variable {K : Type} {P : Prog K}

/-! ### The intended value -/

/-- `swapIn` has been reached or entered, and has not returned. -/
def Phase.inSwapIn : Phase K → Bool
  | .assertNotExec | .setExec | .switchIn | .inside _ | .yielding _ _ | .switchOut _
  | .returned => true
  | _ => false

/-- The worker has dequeued an entry in this iteration of the loop and is not
    past the entry's `swapIn`. At the top of the loop and in the idle branch it
    is not. -/
def PC.busy : PC K → Bool
  | .check (some _) => true
  | .prepare _ => true
  | .on b _ ph => b != .idle && ph.inSwapIn
  | _ => false

def Worker.busy (x : Worker K) : Nat :=
  x.pc.busy.toNat

/-- The number of busy workers. -/
def busyCount (s : State K) : Nat :=
  total Worker.busy s.workers s.nworkers

/-- `m_activeThreadCount` is the number of busy workers. -/
def ActiveExact (s : State K) : Prop :=
  s.activeThreadCount = busyCount s

/-- The step finds that the fiber it has taken from the queue is `TERM` or `EXCEPT`. -/
def DequeuedFinished (s : State K) (l : Label K) : Prop :=
  ∃ w f, l = .work w ∧ (s.workers w).pc = .check (some (.fiber f)) ∧
    (s.heap f).state.finished = true

/-! ### One step -/

theorem busyCount_setWorker {s s' : State K} {w : Nat} {y : Worker K}
    (hw : w < s.nworkers) (hn : s'.nworkers = s.nworkers)
    (hworkers : s'.workers = Function.update s.workers w y) :
    busyCount s' + (s.workers w).busy = busyCount s + y.busy := by
  unfold busyCount
  rw [hworkers, hn]
  exact total_update Worker.busy s.workers y hw

theorem busyCount_setPC {s t : State K} {w : Nat} (pc : PC K) (hw : w < s.nworkers)
    (hn : t.nworkers = s.nworkers) (hworkers : t.workers = s.workers) :
    busyCount (t.setPC w pc) + (s.workers w).pc.busy.toNat = busyCount s + pc.busy.toNat := by
  unfold busyCount State.setPC State.setWorker
  rw [hworkers, hn]
  exact total_update Worker.busy s.workers { s.workers w with pc := pc } hw

theorem busyCount_owner {s s' : State K} (h : OwnerFrame s s') : busyCount s' = busyCount s := by
  have hnew : ∀ w, s.nworkers ≤ w → w < s'.nworkers → (s'.workers w).busy = 0 := by
    intro w h₁ h₂
    obtain ⟨tid, htid⟩ := h.fresh w h₁ h₂
    rw [htid]
    rfl
  have hold : total Worker.busy s'.workers s.nworkers = total Worker.busy s.workers s.nworkers :=
    total_congr fun w hw => by rw [h.old w (.inl hw)]
  exact (total_grow h.grow hnew).trans hold

theorem busy_le_busyCount {s : State K} (h : WellFormed s) {w : Nat}
    (hw : (s.workers w).pc.busy = true) : 1 ≤ busyCount s := by
  have hlt : w < s.nworkers := h.lt_nworkers (by rintro hpc; rw [hpc] at hw; cases hw)
  have hle := le_total Worker.busy s.workers hlt
  have hone : (s.workers w).busy = 1 := by simp [Worker.busy, hw]
  exact hone ▸ hle

theorem CodeMove.inSwapIn {c' : Code K} {a : Act K} {x x' : Fiber K} {ph : Phase K}
    (h : CodeMove c' a x x' ph) : ph.inSwapIn = true := by
  cases h <;> rfl

/-- Inside the fiber nothing changes whether the worker is past `swapIn`, and
    leaving it without the decrement is for the idle branch. -/
theorem FiberMove.busy {b : Branch} {f : Nat} {x x' : Fiber K} {ph ph' : Phase K}
    (h : FiberMove b x ph x' ph') : (PC.on b f ph').busy = (PC.on b f ph).busy := by
  cases h with
  | back hb => simp [PC.busy, hb]
  | _ => rfl

/-- Every step but the one on a finished fiber moves the counter and the number
    of busy workers alike. -/
theorem Move.active {s s' : State K} {l : Label K} (h : WellFormed s) (hm : Move P s l s')
    (hle : busyCount s ≤ s.activeThreadCount) (hl : ¬ DequeuedFinished s l) :
    s'.activeThreadCount + busyCount s = s.activeThreadCount + busyCount s' := by
  -- a step of `w` to `y` that leaves the counter alone and `w` as busy as before
  have quiet : ∀ (w : Nat) (y : Worker K) (t : State K), (s.workers w).pc ≠ .exited →
      t.nworkers = s.nworkers → t.workers = Function.update s.workers w y →
      t.activeThreadCount = s.activeThreadCount → y.pc.busy = (s.workers w).pc.busy →
      t.activeThreadCount + busyCount s = s.activeThreadCount + busyCount t := by
    intro w y t hw hn hworkers hact hbusy
    have := busyCount_setWorker (h.lt_nworkers hw) hn hworkers
    have hsame : y.busy = (s.workers w).busy := by simp only [Worker.busy, hbusy]
    omega
  cases hm with
  | fails _ => rfl
  | owner _ hf => rw [hf.active, busyCount_owner hf]
  | extSchedule _ => rfl
  | extNew => rfl
  | @prelude w hpc => exact quiet w _ _ (by rw [hpc]; nofun) rfl rfl rfl (by rw [hpc]; rfl)
  | @scanNone w hpc _ => exact quiet w _ _ (by rw [hpc]; nofun) rfl rfl rfl (by rw [hpc]; rfl)
  | @scanSome w e q hpc _ =>
    have hlt : w < s.nworkers := h.lt_nworkers (by rw [hpc]; nofun)
    have hadd := busyCount_setPC (s := s)
      (t := { s with fibers := q, activeThreadCount := s.activeThreadCount + 1 })
      (.check (some e.task)) hlt rfl rfl
    simp only [hpc, PC.busy, Bool.toNat_true, Bool.toNat_false] at hadd
    simp only [State.setPC_active]
    omega
  | @checkNone w hpc => exact quiet w _ _ (by rw [hpc]; nofun) rfl rfl rfl (by rw [hpc]; rfl)
  | @checkDone w f hpc hx => exact absurd ⟨w, f, rfl, hpc, hx⟩ hl
  | @checkFiber w f hpc _ => exact quiet w _ _ (by rw [hpc]; nofun) rfl rfl rfl (by rw [hpc]; rfl)
  | @checkCb w k hpc => exact quiet w _ _ (by rw [hpc]; nofun) rfl rfl rfl (by rw [hpc]; rfl)
  | @prepareOld w k g hpc _ _ =>
    exact quiet w _ _ (by rw [hpc]; nofun) rfl rfl rfl (by rw [hpc]; rfl)
  | @prepareNew w k hpc _ => exact quiet w _ _ (by rw [hpc]; nofun) rfl rfl rfl (by rw [hpc]; rfl)
  | @idleExit w f hpc _ _ => exact quiet w _ _ (by rw [hpc]; nofun) rfl rfl rfl (by rw [hpc]; rfl)
  | @idleEnter w f hpc _ _ => exact quiet w _ _ (by rw [hpc]; nofun) rfl rfl rfl (by rw [hpc]; rfl)
  | @fiber w b f ph x ph' hpc hx =>
    exact quiet w _ _ (by rw [hpc]; nofun) rfl rfl rfl (by rw [hpc]; exact hx.busy)
  | @decrement w b f hpc hb =>
    have hbusy : (s.workers w).pc.busy = true := by simp [hpc, PC.busy, hb, Phase.inSwapIn]
    have hpos := busy_le_busyCount h hbusy
    have hlt : w < s.nworkers := h.lt_nworkers (by rw [hpc]; nofun)
    have hadd := busyCount_setPC (s := s)
      (t := { s with activeThreadCount := s.activeThreadCount - 1 })
      (.on b f .testReady) hlt rfl rfl
    have hafter : (PC.on b f .testReady : PC K).busy = false := by simp [PC.busy, Phase.inSwapIn]
    rw [hbusy, hafter, Bool.toNat_true, Bool.toNat_false] at hadd
    simp only [State.setPC_active]
    omega
  | @requeue w b f hpc =>
    exact quiet w _ _ (by rw [hpc]; nofun) rfl rfl rfl (by simp [hpc, PC.busy, Phase.inSwapIn])
  | @leave w b f hpc _ _ =>
    exact quiet w _ _ (by rw [hpc]; nofun) rfl rfl rfl (by simp [hpc, PC.busy, Phase.inSwapIn])
  | @setHold w b f hpc =>
    exact quiet w _ _ (by rw [hpc]; nofun) rfl rfl rfl (by simp [hpc, PC.busy, Phase.inSwapIn])
  | @recycle w b f hpc _ =>
    exact quiet w _ _ (by rw [hpc]; nofun) rfl rfl rfl (by simp [hpc, PC.busy, Phase.inSwapIn])
  | @code w b f c c' a x ph' hpc _ hx _ =>
    have hbusy : (PC.on b f ph').busy = (PC.on b f (.inside (.body c))).busy := by
      have hin := hx.inSwapIn
      simp only [PC.busy, hin]
      rfl
    exact quiet w _ _ (by rw [hpc]; nofun) rfl rfl rfl (by rw [hpc]; exact hbusy)
  | @codeSchedule w b f c c' fc thread hpc _ _ =>
    exact quiet w _ _ (by rw [hpc]; nofun) rfl rfl rfl (by rw [hpc]; rfl)
  | @codeNew w b f c c' k hpc _ =>
    exact quiet w _ _ (by rw [hpc]; nofun) rfl rfl rfl (by rw [hpc]; rfl)

/-- A step on a finished fiber: the worker stops being busy, the counter stays. -/
theorem step_active_lost {s s' : State K} {l : Label K} (h : WellFormed s)
    (hstep : step P s l = some s') (hl : DequeuedFinished s l) :
    s'.activeThreadCount = s.activeThreadCount ∧ busyCount s' + 1 = busyCount s := by
  obtain ⟨w, f, rfl, hpc, hx⟩ := hl
  have hfault := (step_move hstep).1
  have hs' : s' = s.setPC w .idleTest := by
    simpa [step, workStep, hfault, hpc, hx, eq_comm] using hstep
  have hlt : w < s.nworkers := h.lt_nworkers (by simp [hpc])
  have hadd := busyCount_setPC (s := s) (t := s) .idleTest hlt rfl rfl
  simp only [hpc, PC.busy, Bool.toNat_true, Bool.toNat_false] at hadd
  rw [hs']
  exact ⟨rfl, by omega⟩

/-! ### Whole runs -/

/-- After any run the counter is at least the number of busy workers, and exceeds
    it exactly if some step of the run was lost on a finished fiber. -/
theorem exec_active {threads : Nat} {useCaller : Bool} {caller : Int} (ls : List (Label K))
    {s : State K}
    (hrun : (scheduler P threads useCaller caller).exec
      (.initial threads useCaller caller) ls = some s) :
    busyCount s ≤ s.activeThreadCount ∧
      (ActiveExact s ↔
        (scheduler P threads useCaller caller).Steps ls fun s l => ¬ DequeuedFinished s l) := by
  induction ls using List.reverseRecOn generalizing s with
  | nil =>
    simp only [System.exec_nil, Option.some.injEq] at hrun
    subst hrun
    exact ⟨Nat.le_refl _, iff_of_true rfl System.steps_nil⟩
  | append_singleton ls l ih =>
    rw [System.exec_snoc, Option.bind_eq_some_iff] at hrun
    obtain ⟨t, ht, hstep⟩ := hrun
    obtain ⟨hle, hiff⟩ := ih ht
    have hwf : WellFormed t := wellFormed_reachable (System.reachable_exec .init ht)
    have hsteps : (scheduler P threads useCaller caller).Steps (ls ++ [l])
        (fun s l => ¬ DequeuedFinished s l) ↔ ActiveExact t ∧ ¬ DequeuedFinished t l := by
      rw [System.steps_snoc, ← hiff]
      apply and_congr_right
      intro _
      constructor
      · exact fun h => h t ht
      · intro h u hu
        cases ht.symm.trans hu
        exact h
    rw [hsteps]
    unfold ActiveExact at hiff ⊢
    by_cases hl : DequeuedFinished t l
    · have hlost := step_active_lost hwf hstep hl
      refine ⟨by omega, iff_of_false (by omega) fun h => h.2 hl⟩
    · have hmove := (step_move hstep).2.active hwf hle hl
      refine ⟨by omega, ?_⟩
      rw [and_iff_left hl]
      omega

/-- What `stop` relies on: with `stop` called, nothing queued and nobody busy,
    `stopping()` answers true. -/
def StopsWhenQuiet (s : State K) : Prop :=
  s.autoStop = true → s.stoppingFlag = true → s.fibers = [] →
    (∀ w, (s.workers w).pc.busy = false) → s.stopping = true

theorem ActiveExact.stopsWhenQuiet {s : State K} (h : ActiveExact s) : StopsWhenQuiet s := by
  intro hauto hflag hfibers hquiet
  have hzero : busyCount s = 0 := total_eq_zero fun w _ => by simp [Worker.busy, hquiet w]
  have hactive : s.activeThreadCount = 0 := h.trans hzero
  simp [State.stopping, hauto, hflag, hfibers, hactive]

/-- A run keeps the counter exact, and `stopping()` able to answer true, in every
    state it visits if and only if no step of it finds a dequeued fiber finished. -/
theorem active_exact_iff {threads : Nat} {useCaller : Bool} {caller : Int} (ls : List (Label K))
    (hrun : ((scheduler P threads useCaller caller).exec
      (.initial threads useCaller caller) ls).isSome) :
    (scheduler P threads useCaller caller).Visits ls
        (fun s => ActiveExact s ∧ StopsWhenQuiet s) ↔
      (scheduler P threads useCaller caller).Steps ls fun s l => ¬ DequeuedFinished s l := by
  obtain ⟨s, hrun⟩ := Option.isSome_iff_exists.mp hrun
  constructor
  · intro h
    exact (exec_active ls hrun).2.mp (h ls s List.prefix_rfl hrun).1
  · intro h pre t hp ht
    have hpre : (scheduler P threads useCaller caller).Steps pre
        fun s l => ¬ DequeuedFinished s l := fun q l u hq => h q l u (hq.trans hp)
    have hexact := (exec_active pre ht).2.mpr hpre
    exact ⟨hexact, hexact.stopsWhenQuiet⟩

/-- One worker, and a fiber that is scheduled twice before it runs. -/
def scheduledTwice : List (Label Script) :=
  [.start [7], .ext (.newFiber .ret 0), .ext (.schedule (some (.fiber 0)) (-1)),
    .ext (.schedule (some (.fiber 0)) (-1)), .work 0, .work 0, .work 0, .work 0, .work 0, .work 0,
    .work 0, .act 0 .ret, .work 0, .work 0, .work 0, .work 0, .work 0, .work 0]

/-- The second entry is dequeued when the fiber is `TERM`: the counter stays at 1. -/
theorem active_not_exact :
    ¬ ∀ s, (scheduler scripted 1 false 0).Reachable s → ActiveExact s := by
  intro h
  have hexact := h _ (System.reachable_get scheduledTwice (by decide))
  revert hexact
  unfold ActiveExact
  decide

theorem active_exact_iff_twice :
    (scheduler scripted 1 false 0).Visits scheduledTwice
        (fun s => ActiveExact s ∧ StopsWhenQuiet s) ↔
      (scheduler scripted 1 false 0).Steps scheduledTwice fun s l => ¬ DequeuedFinished s l :=
  active_exact_iff scheduledTwice (by decide)

/-- Lost or not, the counter never falls below the number of busy workers. -/
theorem busyCount_le_active {threads : Nat} {useCaller : Bool} {caller : Int} {s : State K}
    (h : (scheduler P threads useCaller caller).Reachable s) :
    busyCount s ≤ s.activeThreadCount := by
  obtain ⟨ls, hrun⟩ := System.reachable_iff_exec.mp h
  exact (exec_active ls hrun).1

end Gwn.Scheduler
