import Gwn.Scheduler.Step

/-! # A start that fails

    `start` sets `m_stopping`, gives `m_threads` its full size and then creates one thread
    after the other (gwn/scheduler.cc). If a constructor throws, the entries from there
    on stay empty pointers, and nothing is taken back. This module adds the failure and
    the empty pointers to the system of the scheduler:

    - `startFails`, `Halfway`: the failed call, and `stop` with empty pointers in `m_threads`
    - `Recovers`: nothing has changed, or `stop` cleans up
    - `not_recovers`: a failed start can never be stopped -/

namespace Gwn.Scheduler

open LTS

variable {K : Type}

/-! ### Empty pointers -/

/-- The scheduler with the empty pointers in its vectors of threads. -/
structure Halfway (K : Type) where
  state : State K
  /-- The entries of `m_threads` behind those of `state.threads`. -/
  empty : Nat
  /-- The same of the local `thrs` of `stop`. -/
  thrsEmpty : Nat
  /-- `stop` has called `join` of an empty pointer. -/
  nullJoin : Bool

inductive StartLabel (K : Type) where
  /-- A step of the scheduler as it is otherwise. -/
  | ok (l : Label K)
  /-- The owner calls `start()`, which creates threads with these ids until a
      constructor throws. -/
  | startFails (tids : List Int)

/-- `start` up to the constructor that throws. -/
def startFails (x : Halfway K) (tids : List Int) : Option (Halfway K) :=
  let s := x.state
  if s.fault.isSome ∨ x.nullJoin ∨ s.ctl ≠ .user ∨ s.threadCount ≤ tids.length then none
  -- `start` returns, or its assertion fails, before it creates a thread
  else if !s.stoppingFlag ∨ s.threads ≠ [] ∨ x.empty ≠ 0 then none
  else some { x with
    state := { s with
      stoppingFlag := false
      workers := fun w =>
        if s.nworkers ≤ w ∧ w < s.nworkers + tids.length then
          .fresh (tids.getD (w - s.nworkers) (-1))
        else s.workers w
      nworkers := s.nworkers + tids.length
      threads := List.range' s.nworkers tids.length }
    empty := s.threadCount - tids.length }

/-- One step of the owner inside `stop`, next to the empty pointers. -/
def emptyStep (P : Prog K) (x : Halfway K) : Option (Halfway K) :=
  match x.state.ctl with
  -- `thrs.swap(m_threads)`
  | .swapThreads =>
    (step P x.state .ctl).map fun s => { x with state := s, empty := 0, thrsEmpty := x.empty }
  -- the threads that were created are joined
  | .join [] =>
    if 0 < x.thrsEmpty then some { x with nullJoin := true }
    else (step P x.state .ctl).map fun s => { x with state := s }
  | _ => (step P x.state .ctl).map fun s => { x with state := s }

def okStep (P : Prog K) (x : Halfway K) : Label K → Option (Halfway K)
  | .ctl => emptyStep P x
  | .start tids =>
    -- `gwn_ASSERT(m_threads.empty())`
    if x.state.ctl = .user ∧ x.state.stoppingFlag ∧ 0 < x.empty then
      some { x with state := { x.state with fault := some .startThreads } }
    else (step P x.state (.start tids)).map fun s => { x with state := s }
  | l => (step P x.state l).map fun s => { x with state := s }

def halfwayStep (P : Prog K) (x : Halfway K) : StartLabel K → Option (Halfway K)
  | .ok l => if x.state.fault.isSome ∨ x.nullJoin then none else okStep P x l
  | .startFails tids => startFails x tids

def failingScheduler (P : Prog K) (threads : Nat) (useCaller : Bool) (caller : Int) :
    System (Halfway K) (StartLabel K) where
  init :=
    { state := .initial threads useCaller caller, empty := 0, thrsEmpty := 0, nullJoin := false }
  step := halfwayStep P

/-! ### Recovery -/

/-- `stop` has returned: it has joined the threads `ws` and no empty pointer, and `start`
    is accepted. -/
structure StoppedClean (P : Prog K) (ws : List Nat) (x : Halfway K) : Prop where
  returned : x.state.ctl = .user
  clean : x.nullJoin = false
  joined : ∀ w ∈ ws, (x.state.workers w).pc = .exited
  restarts :
    ∃ tids y, halfwayStep P x (.ok (.start tids)) = some y ∧ y.state.stoppingFlag = false

/-- After `start` has failed in `x` and left `y` behind: nothing has changed, or `stop` can
    be called and in some run comes to its end. -/
def Recovers (P : Prog K) (threads : Nat) (useCaller : Bool) (caller : Int)
    (x y : Halfway K) : Prop :=
  y = x ∨ ∃ ls z,
    (failingScheduler P threads useCaller caller).exec y (.ok .stop :: ls) = some z ∧
    StoppedClean P y.state.threads z

/-! ### A failed start -/

/-- Inside `stop`, up to the swap of the threads, and not on the way for a lone caller. -/
def Ctl.beforeSwap : Ctl → Bool
  | .single | .setStopping | .rootTest | .callRoot | .inRoot _ | .swapThreads => true
  | _ => false

/-- `stop` is on its way to the empty pointers. -/
structure Doomed (x : Halfway K) : Prop where
  threads : 0 < x.state.threadCount
  place : 0 < x.empty ∧ x.state.ctl.beforeSwap = true ∨ 0 < x.thrsEmpty ∧
    ∃ ws, x.state.ctl = .join ws

theorem Doomed.not_user {x : Halfway K} (h : Doomed x) : x.state.ctl ≠ .user := by
  intro hctl
  rcases h.place with ⟨_, hbefore⟩ | ⟨_, ws, hjoin⟩
  · rw [hctl] at hbefore
    cases hbefore
  · rw [hctl] at hjoin
    cases hjoin

section step
variable {P : Prog K} {x y : Halfway K}

/-- A step that `stop` does not take leaves it where it is. -/
theorem Doomed.other {s : State K} {l : Label K} (h : Doomed x) (hstep : step P x.state l = some s)
    (hl : l.notOwner = true) : Doomed { x with state := s } := by
  have hsame := (step_move hstep).2.ownerSame hl
  refine ⟨?_, ?_⟩
  · show 0 < s.threadCount
    rw [hsame.threadCount]
    exact h.threads
  · show _ ∧ s.ctl.beforeSwap = true ∨ _ ∧ ∃ ws, s.ctl = .join ws
    rw [hsame.ctl]
    exact h.place

/-- A step of `stop` before the swap is one to the next of its places. -/
theorem ctlStep_before {s s' : State K} (hbefore : s.ctl.beforeSwap = true)
    (hswap : s.ctl ≠ .swapThreads) (hthreads : 0 < s.threadCount) (h : ctlStep s = some s') :
    s'.ctl.beforeSwap = true ∧ s'.threadCount = s.threadCount := by
  cases ctlStep_move h with
  | single _ hsingle => exact absurd hsingle.1 (by omega)
  | notSingle _ _ | setStopping _ | toCall _ _ _ | noCall _ _ | call _ _ | returned _ _ _ =>
    exact ⟨rfl, rfl⟩
  | callExec _ _ | neverReach _ _ _ => exact ⟨hbefore, rfl⟩
  | swapThreads hctl => exact absurd hctl hswap
  | singleSet hctl | stopping hctl _ | notStopping hctl _ | joined hctl | join _ _ hctl _ =>
    rw [hctl] at hbefore
    cases hbefore

theorem Doomed.step {l : StartLabel K} (h : Doomed x) (hstep : halfwayStep P x l = some y) :
    Doomed y := by
  have huser := h.not_user
  cases l with
  | startFails tids =>
    simp [halfwayStep, startFails, huser] at hstep
  | ok l =>
    simp only [halfwayStep, Option.ite_none_left_eq_some, not_or, Bool.not_eq_true,
      Option.isSome_eq_false_iff, Option.isNone_iff_eq_none] at hstep
    obtain ⟨⟨hfault, _⟩, hstep⟩ := hstep
    cases l with
    | start tids =>
      simp [okStep, huser, Scheduler.step, hfault, startStep] at hstep
    | stop =>
      simp [okStep, huser, Scheduler.step, hfault, stopStep] at hstep
    | ctl =>
      have hctlStep :
          Scheduler.step P x.state .ctl = ctlStep x.state := by simp [Scheduler.step, hfault]
      rcases h.place with ⟨hempty, hbefore⟩ | ⟨hempty, ws, hjoin⟩
      · by_cases hswap : x.state.ctl = .swapThreads
        · simp only [okStep, emptyStep, hswap, hctlStep, ctlStep, Option.map_some,
            Option.some.injEq] at hstep
          subst hstep
          exact ⟨h.threads, .inr ⟨hempty, x.state.threads, rfl⟩⟩
        · have hother :
              okStep P x .ctl = (ctlStep x.state).map fun s => { x with state := s } := by
            show emptyStep P x = _
            unfold emptyStep
            split
            · next hctl => exact absurd hctl hswap
            · next hctl =>
              rw [hctl] at hbefore
              cases hbefore
            · rw [hctlStep]
          rw [hother, Option.map_eq_some_iff] at hstep
          obtain ⟨s, hs, rfl⟩ := hstep
          obtain ⟨hbefore', hcount⟩ := ctlStep_before hbefore hswap h.threads hs
          exact ⟨hcount ▸ h.threads, .inl ⟨hempty, hbefore'⟩⟩
      · cases ws with
        | nil =>
          -- `join` of an empty pointer
          simp only [okStep, emptyStep, hjoin, if_pos hempty, Option.some.injEq] at hstep
          subst hstep
          exact ⟨h.threads, .inr ⟨hempty, [], hjoin⟩⟩
        | cons w ws =>
          simp only [okStep, emptyStep, hjoin, hctlStep, ctlStep, Option.map_eq_some_iff,
            Option.ite_none_right_eq_some] at hstep
          obtain ⟨s, ⟨_, hs⟩, rfl⟩ := hstep
          obtain rfl := Option.some.inj hs
          exact ⟨h.threads, .inr ⟨hempty, ws, rfl⟩⟩
    | _ =>
      simp only [okStep, Option.map_eq_some_iff] at hstep
      obtain ⟨s, hs, rfl⟩ := hstep
      exact h.other hs rfl

theorem Doomed.exec {threads : Nat} {useCaller : Bool} {caller : Int} {ls : List (StartLabel K)}
    (h : Doomed x) (hexec : (failingScheduler P threads useCaller caller).exec x ls = some y) :
    Doomed y := by
  induction ls generalizing x with
  | nil =>
    obtain rfl := Option.some.inj hexec
    exact h
  | cons l ls ih =>
    simp only [System.exec, Option.bind_eq_some_iff] at hexec
    obtain ⟨z, hz, hexec⟩ := hexec
    exact ih (h.step hz) hexec

/-- What a failed start leaves behind. -/
theorem startFails_some {tids : List Int} (h : startFails x tids = some y) :
    x.state.stoppingFlag ≠ y.state.stoppingFlag ∧ 0 < y.state.threadCount ∧ 0 < y.empty := by
  simp only [startFails, Option.ite_none_left_eq_some, not_or, Bool.not_eq_true',
    Bool.not_eq_false] at h
  obtain ⟨⟨_, _, _, hlt⟩, ⟨hflag, _⟩, h⟩ := h
  obtain rfl := Option.some.inj h
  refine ⟨?_, ?_, ?_⟩
  · rw [hflag]
    simp
  · show 0 < x.state.threadCount
    omega
  · show 0 < x.state.threadCount - tids.length
    omega

/-- `stop` does not come to its end. -/
theorem not_recovers_of_empty {threads : Nat} {useCaller : Bool} {caller : Int}
    (hchanged : x.state.stoppingFlag ≠ y.state.stoppingFlag) (hthreads : 0 < y.state.threadCount)
    (hempty : 0 < y.empty) : ¬ Recovers P threads useCaller caller x y := by
  intro h
  rcases h with heq | ⟨ls, z, hexec, hstopped⟩
  · exact hchanged (by rw [heq])
  · simp only [System.exec, Option.bind_eq_some_iff] at hexec
    obtain ⟨t, ht, hexec⟩ := hexec
    have hstep : halfwayStep P y (.ok .stop) = some t := ht
    simp only [halfwayStep, Option.ite_none_left_eq_some, okStep, Option.map_eq_some_iff] at hstep
    obtain ⟨_, s, hs, rfl⟩ := hstep
    cases step_by hs with
    | other hl _ => cases hl
    | stop hstop =>
      obtain ⟨-, rfl⟩ := stopStep_eq hstop
      have hdoomed : Doomed { y with state := { y.state with autoStop := true, ctl := .single } } :=
        ⟨hthreads, .inl ⟨hempty, rfl⟩⟩
      exact (hdoomed.exec hexec).not_user hstopped.returned

end step

/-- For every scheduler, in every state, and every number of threads that have been
    created when a constructor throws: the failed start has changed the scheduler, and no
    call of `stop` after it comes to an end. -/
theorem not_recovers {P : Prog K} {threads : Nat} {useCaller : Bool} {caller : Int}
    {x y : Halfway K} {tids : List Int}
    (h : (failingScheduler P threads useCaller caller).step x (.startFails tids) = some y) :
    ¬ Recovers P threads useCaller caller x y := by
  obtain ⟨hchanged, hthreads, hempty⟩ := startFails_some h
  exact not_recovers_of_empty hchanged hthreads hempty

/-- Of two threads the second one cannot be created. -/
theorem not_recovers_two : ∃ y, (failingScheduler scripted 2 false 0).step
    (failingScheduler scripted 2 false 0).init (.startFails [1]) = some y ∧
    ¬ Recovers scripted 2 false 0 (failingScheduler scripted 2 false 0).init y :=
  ⟨_, rfl, @not_recovers _ scripted 2 false 0 _ _ [1] rfl⟩

/-- Not even the first one of a single thread can be created. -/
theorem not_all_recover : ¬ ∀ (P : Prog Script) (threads : Nat) (useCaller : Bool) (caller : Int)
    (x y : Halfway Script) (tids : List Int),
      (failingScheduler P threads useCaller caller).Reachable x →
    (failingScheduler P threads useCaller caller).step x (.startFails tids) = some y →
    Recovers P threads useCaller caller x y := by
  intro h
  have hrecovers := h scripted 1 false 0 _ _ [] .init rfl
  exact not_recovers_of_empty (by decide) (by decide) (by decide) hrecovers

end Gwn.Scheduler
