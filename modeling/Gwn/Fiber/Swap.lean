import Gwn.Scheduler.Model

/-! # Switching between fibers by hand

    `swapIn`, `swapOut` and `back` (gwn/fiber.cc) as what they do to the contexts of one
    thread. Where `swapIn` saves the caller and `swapOut` looks for it is not the thread's
    main fiber but `t_scheduler_fiber`, which a plain thread does not have, which is the
    main fiber on a pool thread, and `m_rootFiber` on the thread that has created the
    scheduler. The main fiber calls `swapIn` for any fibers in any order:

    - `Thread`, `step`: the thread-locals, the contexts, and who sets them
    - `PingPong`: every call runs the next segment of its fiber and comes back
    - `not_pingPong`: a plain thread, as in tests/fiber_test.cc
    - `pingPong_iff`: the law holds throughout a run if and only if each call finds a
      scheduler fiber, and each fiber that ends finds its caller -/

namespace Gwn.Fiber

open LTS
open Scheduler (FiberState)

/-! ### One thread -/

/-- A fiber of the thread. -/
inductive Ref where
  /-- `t_threadFiber`, on the thread's own stack. -/
  | main
  /-- `m_rootFiber` of a scheduler that was created on the thread. -/
  | root
  | user (f : Nat)
deriving DecidableEq, Repr

/-- What `m_ctx` holds: where the thread goes on when it is switched to. -/
inductive Point where
  /-- In `Fiber::Fiber()`, behind `getcontext`. -/
  | constructor
  /-- In the main fiber, behind its `n`-th `swapIn`. -/
  | called (n : Nat)
  /-- At the start of what `makecontext` was given. -/
  | entry
  /-- In a body, behind its `i`-th `YieldToHold`. -/
  | yielded (i : Nat)
  /-- Behind the last switch of `MainFunc` or `CallerMainFunc`. -/
  | done
deriving DecidableEq, Repr

/-- Where the thread is. -/
inductive PC where
  /-- In the main fiber, between two calls. -/
  | main
  /-- In the `i`-th segment of a body. -/
  | segment (f i : Nat)
  /-- It has used a fiber that is null or gone. -/
  | crashed
  /-- It has gone on at any other place. -/
  | astray
deriving DecidableEq, Repr

structure Thread where
  /-- `t_fiber`. -/
  fiber : Option Ref
  /-- `t_threadFiber`. -/
  threadFiber : Option Ref
  /-- `t_scheduler` is not null. -/
  scheduler : Bool
  /-- `t_scheduler_fiber`. -/
  schedulerFiber : Option Ref
  /-- The scheduler that was created on the thread is still there, with its `m_rootFiber`. -/
  rootAlive : Bool
  /-- `m_state` of the fibers. -/
  state : Nat → FiberState
  /-- `m_ctx`. -/
  ctx : Ref → Point
  pc : PC
  /-- The call of `swapIn` that has returned last. -/
  returned : Nat
  /-- The fibers that `swapIn` was called for, in this order. -/
  calls : List Nat
  /-- The segments that have run. -/
  ran : List (Nat × Nat)

/-- What the main fiber does, and the fiber it is in. -/
inductive Label where
  | getThis
  /-- A `Scheduler` with `cur_managed` is constructed. -/
  | newScheduler
  /-- It is destroyed. -/
  | dropScheduler
  /-- `Scheduler::run` begins, on a pool thread. -/
  | enterRun
  | swapIn (f : Nat)
  /-- The segment runs, up to and including the switch at its end. -/
  | go
deriving DecidableEq, Repr

namespace Thread

/-- `Fiber::GetThis()`, which creates the main fiber. -/
def getThis (s : Thread) : Thread :=
  match s.fiber with
  | some _ => s
  | none =>
    { s with fiber := some .main, threadFiber := some .main
             ctx := Function.update s.ctx .main .constructor }

/-- The object that a pointer points to is there. -/
def live (s : Thread) : Ref → Bool
  | .root => s.rootAlive
  | _ => true

def setState (s : Thread) (f : Nat) (st : FiberState) : Thread :=
  { s with state := Function.update s.state f st }

def setCtx (s : Thread) (r : Ref) (p : Point) : Thread :=
  { s with ctx := Function.update s.ctx r p }

/-- The context of `r` is loaded. -/
def resume (s : Thread) (r : Ref) : Thread :=
  match s.ctx r, r with
  | .called n, _ => { s with pc := .main, returned := n }
  | .entry, .user f => { s with pc := .segment f 0 }
  | .yielded i, .user f => { s with pc := .segment f i }
  | _, _ => { s with pc := .astray }

/-- `swapIn`, behind its assertion. -/
def swapIn (s : Thread) (f : Nat) : Thread :=
  let s := { s.setState f .exec with fiber := some (.user f), calls := s.calls ++ [f] }
  match s.schedulerFiber with
  | none => { s with pc := .crashed }
  | some r =>
    if s.live r then (s.setCtx r (.called s.calls.length)).resume (.user f)
    else { s with pc := .crashed }

/-- `swapOut` of a fiber that is to go on at `p`. -/
def swapOut (s : Thread) (f : Nat) (p : Point) : Thread :=
  let s := { s with fiber := s.threadFiber }
  match s.schedulerFiber with
  | none => { s with pc := .crashed }
  | some r => if s.live r then (s.setCtx (.user f) p).resume r else { s with pc := .crashed }

/-- `back`. -/
def back (s : Thread) (f : Nat) (p : Point) : Thread :=
  let s := { s with fiber := s.threadFiber }
  match s.threadFiber with
  | none => { s with pc := .crashed }
  | some r => (s.setCtx (.user f) p).resume r

/-- `YieldToHold`, to go on with segment `i`. -/
def yieldToHold (s : Thread) (i : Nat) : Thread :=
  match s.fiber with
  | some (.user f) =>
    if s.state f = .exec then (s.setState f .hold).swapOut f (.yielded i)
    else { s with pc := .crashed }
  | _ => { s with pc := .astray }

/-- `swapIn` may be called: the thread has called `GetThis`, and the body is not over. -/
def Ready (s : Thread) (f : Nat) : Prop :=
  s.pc = .main ∧ s.threadFiber.isSome ∧ (s.state f = .init ∨ s.state f = .hold)

instance (s : Thread) (f : Nat) : Decidable (s.Ready f) :=
  inferInstanceAs (Decidable (_ ∧ _ ∧ _))

end Thread

section step
variable (yields : Nat → Nat) (useCaller : Nat → Bool)

/-- The end of a body, in `MainFunc` or `CallerMainFunc`. -/
def Thread.finish (s : Thread) (f : Nat) : Thread :=
  if useCaller f then (s.setState f .term).back f .done else (s.setState f .term).swapOut f .done

def step (s : Thread) : Label → Option Thread
  | .getThis => if s.pc = .main then some s.getThis else none
  | .newScheduler =>
    -- `gwn_ASSERT(GetThis() == nullptr)`
    if s.pc = .main ∧ s.scheduler = false then
      some { s.getThis.setCtx .root .entry with
        scheduler := true, rootAlive := true, schedulerFiber := some .root }
    else none
  | .dropScheduler =>
    if s.pc = .main ∧ s.rootAlive then
      some { s with scheduler := false, rootAlive := false }
    else none
  | .enterRun =>
    if s.pc = .main ∧ s.scheduler = false then
      some { s.getThis with scheduler := true, schedulerFiber := s.getThis.fiber }
    else none
  | .swapIn f => if s.Ready f then some (s.swapIn f) else none
  | .go =>
    match s.pc with
    | .segment f i =>
      let s := { s with ran := s.ran ++ [(f, i)] }
      some (if i < yields f then s.yieldToHold (i + 1) else s.finish useCaller f)
    | _ => none

/-- A new thread, and fibers that have not run. -/
def Thread.initial : Thread :=
  { fiber := none, threadFiber := none, scheduler := false, schedulerFiber := none,
    rootAlive := false
    state := fun _ => .init, ctx := fun _ => .entry, pc := .main, returned := 0,
      calls := [], ran := [] }

/-- A thread with fibers whose bodies call `YieldToHold` this many times, some of them
    constructed with `use_caller`. -/
def thread : System Thread Label where
  init := .initial
  step := step yields useCaller

/-- Each call with the number of the calls of its fiber before it. -/
def numbered (seen : List Nat) : List Nat → List (Nat × Nat)
  | [] => []
  | f :: calls => (f, seen.count f) :: numbered (seen ++ [f]) calls

/-- `m_state` behind this many calls of `swapIn`. -/
def stateAfter (yields calls : Nat) : FiberState :=
  if calls = 0 then .init else if calls ≤ yields then .hold else .term

/-- The `i`-th `swapIn` runs the `i`-th segment and returns, and the fiber is in the
    state that goes with it. -/
structure PingPong (s : Thread) : Prop where
  /-- The thread is behind the last call, or in the segment that the last call is to run. -/
  place : s.pc = .main ∧ s.returned = s.calls.length ∨
    ∃ calls f, s.calls = calls ++ [f] ∧ s.pc = .segment f (calls.count f)
  ran : s.pc = .main → s.ran = numbered [] s.calls
  states : s.pc = .main → ∀ f, s.state f = stateAfter (yields f) (s.calls.count f)

/-- A call of `swapIn` finds a scheduler fiber that is there, and a fiber with `use_caller`
    ends where this is the main fiber. -/
def Returns (s : Thread) (l : Label) : Prop :=
  (∀ f, l = .swapIn f → s.Ready f → ∃ r, s.schedulerFiber = some r ∧ s.live r = true) ∧
    ∀ f, l = .go → s.pc = .segment f (yields f) → useCaller f = true →
      s.schedulerFiber = some .main

end step

/-! ### The invariant -/

section invariant
variable {yields : Nat → Nat} {useCaller : Nat → Bool} {s s' : Thread} {f i : Nat}

theorem numbered_snoc (seen calls : List Nat) (f : Nat) :
    numbered seen (calls ++ [f]) = numbered seen calls ++ [(f, (seen ++ calls).count f)] := by
  induction calls generalizing seen with
  | nil => simp [numbered]
  | cons g calls ih => simp [numbered, ih]

/-- Where a fiber goes on behind this many calls of `swapIn`. -/
def pointAfter (yields calls : Nat) : Point :=
  if calls = 0 then .entry else if calls ≤ yields then .yielded calls else .done

variable (yields) in
/-- A fiber that has been called this many times, and is not running. -/
structure Parked (s : Thread) (f calls : Nat) : Prop where
  le : calls ≤ yields f + 1
  state : s.state f = stateAfter (yields f) calls
  ctx : s.ctx (.user f) = pointAfter (yields f) calls

variable (yields) in
/-- In the main fiber. -/
structure AtMain (s : Thread) : Prop where
  returned : s.returned = s.calls.length
  ran : s.ran = numbered [] s.calls
  parked : ∀ f, Parked yields s f (s.calls.count f)
  fiber : s.fiber = s.threadFiber

variable (yields) in
/-- In segment `i` of `f`. -/
structure Inside (s : Thread) (f i : Nat) : Prop where
  calls : ∃ calls, s.calls = calls ++ [f] ∧ i = calls.count f ∧ s.ran = numbered [] calls ∧
    ∀ g, g ≠ f → Parked yields s g (calls.count g)
  le : i ≤ yields f
  state : s.state f = .exec
  fiber : s.fiber = some (.user f)
  threadFiber : s.threadFiber = some .main
  /-- The caller is saved in the scheduler fiber. -/
  saved : ∃ r, s.schedulerFiber = some r ∧ s.live r = true ∧ s.ctx r = .called s.calls.length
  /-- If this is not the main fiber, then only an older call is saved in that. -/
  older : ∀ n, s.ctx .main = .called n → s.schedulerFiber ≠ some .main → n < s.calls.length

variable (yields) in
structure Inv (s : Thread) : Prop where
  scheduler : ∀ f, s.schedulerFiber ≠ some (.user f)
  threadFiber : s.threadFiber = none ∨ s.threadFiber = some .main
  called : ∀ n, s.ctx .main = .called n → n ≤ s.calls.length
  place : s.pc = .main ∧ AtMain yields s ∨ ∃ f i, s.pc = .segment f i ∧ Inside yields s f i

theorem inv_initial : Inv yields .initial where
  scheduler f h := by cases h
  threadFiber := .inl rfl
  called n h := by cases h
  place := .inl ⟨rfl, rfl, rfl, fun f => ⟨Nat.zero_le _, rfl, rfl⟩, rfl⟩

theorem Inv.pingPong (hs : Inv yields s) : PingPong yields s := by
  rcases hs.place with ⟨hpc, hmain⟩ | ⟨f, i, hpc, hinside⟩
  · exact ⟨.inl ⟨hpc, hmain.returned⟩, fun _ => hmain.ran, fun _ f => (hmain.parked f).state⟩
  · obtain ⟨calls, hcalls, hi, _⟩ := hinside.calls
    have hnot : s.pc ≠ .main := by simp [hpc]
    exact ⟨.inr ⟨calls, f, hcalls, hi ▸ hpc⟩, fun h => absurd h hnot, fun h => absurd h hnot⟩

theorem Inv.atMain (hs : Inv yields s) (hpc : s.pc = .main) : AtMain yields s := by
  rcases hs.place with ⟨_, hmain⟩ | ⟨f, i, hpc', _⟩
  · exact hmain
  · rw [hpc] at hpc'
    cases hpc'

theorem Inv.inside (hs : Inv yields s) (hpc : s.pc = .segment f i) : Inside yields s f i := by
  rcases hs.place with ⟨hpc', _⟩ | ⟨g, j, hpc', hinside⟩
  · rw [hpc] at hpc'
    cases hpc'
  · rw [hpc] at hpc'
    cases hpc'
    exact hinside

/-! ### Into a fiber -/

theorem resume_called {n : Nat} {r : Ref} (h : s.ctx r = .called n) :
    s.resume r = { s with pc := .main, returned := n } := by
  unfold Thread.resume
  rw [h]

/-- A fiber whose body is not over goes on with the next segment. -/
theorem resume_user {n : Nat} (h : s.ctx (.user f) = pointAfter (yields f) n)
    (hn : n ≤ yields f) :
    s.resume (.user f) = { s with pc := .segment f n } := by
  unfold Thread.resume
  rw [h]
  unfold pointAfter
  by_cases hzero : n = 0
  · rw [if_pos hzero, hzero]
  · rw [if_neg hzero, if_pos hn]

theorem Parked.congr {n : Nat} (h : Parked yields s f n) (hstate : s'.state f = s.state f)
    (hctx : s'.ctx (.user f) = s.ctx (.user f)) : Parked yields s' f n :=
  ⟨h.le, hstate.trans h.state, hctx.trans h.ctx⟩

/-- A body that is not over has segments left. -/
theorem Parked.lt {n : Nat} (h : Parked yields s f n)
    (hstate : s.state f = .init ∨ s.state f = .hold) :
    n ≤ yields f := by
  by_contra hlt
  have hterm : s.state f = .term := by
    rw [h.state]
    unfold stateAfter
    rw [if_neg (by omega), if_neg (by omega)]
  rw [hterm] at hstate
  rcases hstate with h | h
  · cases h
  · cases h

theorem Inv.swapIn {r : Ref} (hs : Inv yields s) (hready : s.Ready f)
    (hr : s.schedulerFiber = some r) (hlive : s.live r = true) : Inv yields (s.swapIn f) := by
  obtain ⟨hpc, hthread, hstate⟩ := hready
  have hmain := hs.atMain hpc
  have hparked := hmain.parked f
  have hle := hparked.lt hstate
  have hne : r ≠ .user f := fun h => hs.scheduler f (h ▸ hr)
  have hmainThread : s.threadFiber = some .main := by
    rcases hs.threadFiber with h | h
    · rw [h] at hthread
      cases hthread
    · exact h
  -- the caller is saved in `r`, which is no fiber that is called, so `f` is loaded as it was parked
  let t : Thread := { s.setState f .exec with fiber := some (.user f), calls := s.calls ++ [f] }
  have heq : s.swapIn f =
      { t.setCtx r (.called t.calls.length) with pc := .segment f (s.calls.count f) } := by
    have hctx : (t.setCtx r (.called t.calls.length)).ctx (.user f) =
        pointAfter (yields f) (s.calls.count f) := by
      show Function.update s.ctx r _ (.user f) = _
      rw [Function.update_of_ne hne.symm, hparked.ctx]
    rw [← resume_user hctx hle]
    show (match s.schedulerFiber with | none => _ | some r => _) = _
    rw [hr]
    show (if s.live r then _ else _) = _
    rw [if_pos hlive]
  rw [heq]
  have hlength : t.calls.length = s.calls.length + 1 := List.length_append
  -- what is saved in the main fiber, if the caller is not
  have holder :
      ∀ n, (t.setCtx r (.called t.calls.length)).ctx .main = .called n → r ≠ .main →
      n < t.calls.length := by
    intro n hn hrmain
    have hold : s.ctx .main = .called n := by
      rw [← hn]
      exact (Function.update_of_ne hrmain.symm _ _).symm
    have hle := hs.called n hold
    omega
  exact {
    scheduler := hs.scheduler
    threadFiber := .inr hmainThread
    called := by
      intro n hn
      by_cases hrmain : r = .main
      · -- the call itself
        subst hrmain
        have hset : Function.update s.ctx .main (.called t.calls.length) .main = .called n := hn
        rw [Function.update_self, Point.called.injEq] at hset
        exact Nat.le_of_eq hset.symm
      · exact Nat.le_of_lt (holder n hn hrmain)
    place := .inr ⟨f, s.calls.count f, rfl, {
      calls := by
        refine ⟨s.calls, rfl, rfl, hmain.ran, fun g hg => (hmain.parked g).congr ?_ ?_⟩
        · exact Function.update_of_ne hg _ _
        · have hgr : Ref.user g ≠ r := fun h => hs.scheduler g (by rw [hr, h])
          exact Function.update_of_ne hgr _ _
      le := hle
      state := Function.update_self _ _ _
      fiber := rfl
      threadFiber := hmainThread
      saved := ⟨r, hr, hlive, Function.update_self _ _ _⟩
      older := by
        intro n hn hsched
        exact holder n hn fun h => hsched (h ▸ hr) }⟩ }

/-! ### Out of a fiber -/

/-- What is left behind when the fiber has come back to the last call. -/
def Thread.left (s : Thread) (f i : Nat) (st : FiberState) (p : Point) : Thread :=
  { (s.setState f st).setCtx (.user f) p with
    ran := s.ran ++ [(f, i)], fiber := s.threadFiber, pc := .main, returned := s.calls.length }

theorem Inv.left (hs : Inv yields s) (hpc : s.pc = .segment f i) :
    Inv yields (s.left f i (stateAfter (yields f) (i + 1)) (pointAfter (yields f) (i + 1))) := by
  have hinside := hs.inside hpc
  obtain ⟨calls, hcalls, hi, hran, hothers⟩ := hinside.calls
  have hcount : s.calls.count f = i + 1 := by simp [hcalls, hi]
  exact {
    scheduler := hs.scheduler
    threadFiber := hs.threadFiber
    called := by
      intro n hn
      have hset :
          Function.update s.ctx (.user f) (pointAfter (yields f) (i + 1)) .main = .called n := hn
      rw [Function.update_of_ne (by simp)] at hset
      exact hs.called n hset
    place := .inl ⟨rfl, {
      returned := rfl
      ran := by
        show s.ran ++ [(f, i)] = numbered [] s.calls
        rw [hcalls, numbered_snoc, hran, hi]
        rfl
      parked := by
        intro g
        by_cases hg : g = f
        · -- its number of calls is one past the segment that has run
          subst hg
          show Parked yields _ g (s.calls.count g)
          rw [hcount]
          exact ⟨Nat.succ_le_succ hinside.le, Function.update_self _ _ _,
            Function.update_self _ _ _⟩
        · -- no other fiber was called
          have hcount' : s.calls.count g = calls.count g := by
            rw [hcalls, List.count_append, List.count_singleton]
            simp [Ne.symm hg]
          show Parked yields _ g (s.calls.count g)
          rw [hcount']
          refine (hothers g hg).congr ?_ ?_
          · exact Function.update_of_ne hg _ _
          · have hgf : Ref.user g ≠ .user f := fun h => hg (Ref.user.inj h)
            exact Function.update_of_ne hgf _ _
      fiber := rfl }⟩ }

theorem swapOut_eq {n : Nat} {r : Ref} {p : Point} (hr : s.schedulerFiber = some r)
    (hlive : s.live r = true) (hne : r ≠ .user f) (hctx : s.ctx r = .called n) :
    s.swapOut f p =
      { s.setCtx (.user f) p with fiber := s.threadFiber, pc := .main, returned := n } := by
  let t : Thread := { s with fiber := s.threadFiber }
  have hctx' : (t.setCtx (.user f) p).ctx r = .called n := by
    rw [← hctx]
    exact Function.update_of_ne hne _ _
  show (match s.schedulerFiber with | none => _ | some r => _) = _
  split
  · next hnone =>
    rw [hr] at hnone
    cases hnone
  · next r' hr' =>
    obtain rfl : r' = r := Option.some.inj (hr'.symm.trans hr)
    show (if s.live r' then (t.setCtx (.user f) p).resume r' else _) = _
    rw [if_pos hlive, resume_called hctx']
    rfl

theorem back_eq {p : Point} (hthread : s.threadFiber = some .main) :
    s.back f p = ({ s with fiber := some .main }.setCtx (.user f) p).resume .main := by
  unfold Thread.back
  rw [hthread]

/-- A fiber that yields comes back to the last call. -/
theorem Inv.yieldToHold (hs : Inv yields s) (hpc : s.pc = .segment f i) (hlt : i < yields f) :
    Inv yields ({ s with ran := s.ran ++ [(f, i)] }.yieldToHold (i + 1)) := by
  have hinside := hs.inside hpc
  obtain ⟨r, hr, hlive, hctx⟩ := hinside.saved
  have hleft := hs.left hpc
  have hstate : stateAfter (yields f) (i + 1) = .hold := by
    unfold stateAfter
    rw [if_neg (by omega), if_pos (by omega)]
  have hpoint : pointAfter (yields f) (i + 1) = .yielded (i + 1) := by
    unfold pointAfter
    rw [if_neg (by omega), if_pos (by omega)]
  rw [hstate, hpoint] at hleft
  have heq : { s with ran := s.ran ++ [(f, i)] }.yieldToHold (i + 1) =
      s.left f i .hold (.yielded (i + 1)) := by
    unfold Thread.yieldToHold
    rw [hinside.fiber]
    show (if s.state f = .exec then _ else _) = _
    rw [if_pos hinside.state]
    exact swapOut_eq hr hlive (fun h => hs.scheduler f (h ▸ hr)) hctx
  exact heq ▸ hleft

/-- So does one that ends, from `MainFunc` in the scheduler fiber and from
    `CallerMainFunc` in the main fiber. -/
theorem Inv.finish (hs : Inv yields s) (hpc : s.pc = .segment f (yields f))
    (hcaller : useCaller f = true → s.schedulerFiber = some .main) :
    Inv yields ({ s with ran := s.ran ++ [(f, yields f)] }.finish useCaller f) := by
  have hinside := hs.inside hpc
  obtain ⟨r, hr, hlive, hctx⟩ := hinside.saved
  have hleft := hs.left hpc
  have hstate : stateAfter (yields f) (yields f + 1) = .term := by
    unfold stateAfter
    rw [if_neg (by omega), if_neg (by omega)]
  have hpoint : pointAfter (yields f) (yields f + 1) = .done := by
    unfold pointAfter
    rw [if_neg (by omega), if_neg (by omega)]
  rw [hstate, hpoint] at hleft
  have heq : { s with ran := s.ran ++ [(f, yields f)] }.finish useCaller f =
      s.left f (yields f) .term .done := by
    unfold Thread.finish
    by_cases huse : useCaller f = true
    · -- `back` loads the main fiber, where `swapIn` has saved the caller
      rw [if_pos huse]
      obtain rfl : r = .main := by
        have hsched := hcaller huse
        rw [hr, Option.some.injEq] at hsched
        exact hsched
      let t : Thread := { s with ran := s.ran ++ [(f, yields f)] }.setState f .term
      have hctx' : ({ t with fiber := some .main }.setCtx (.user f) .done).ctx .main =
          .called s.calls.length := by
        show Function.update s.ctx (.user f) .done .main = _
        rw [Function.update_of_ne (by simp), hctx]
      show t.back f .done = _
      rw [back_eq (s := t) hinside.threadFiber, resume_called hctx']
      unfold Thread.left
      rw [hinside.threadFiber]
      rfl
    · rw [if_neg huse]
      exact swapOut_eq (s := { s with ran := s.ran ++ [(f, yields f)] }.setState f .term) hr hlive
        (fun h => hs.scheduler f (h ▸ hr)) hctx
  exact heq ▸ hleft

/-! ### The steps -/

/-- What only sets the thread-locals, and starts contexts that no body uses. -/
theorem Inv.quiet (hs : Inv yields s) (hpc : s.pc = .main) (hpc' : s'.pc = .main)
    (hreturned : s'.returned = s.returned) (hcalls : s'.calls = s.calls) (hran : s'.ran = s.ran)
    (hstate : s'.state = s.state) (hctx : ∀ f, s'.ctx (.user f) = s.ctx (.user f))
    (hmain : ∀ n, s'.ctx .main = .called n → s.ctx .main = .called n)
    (hscheduler : ∀ f, s'.schedulerFiber ≠ some (.user f))
    (hthread : s'.threadFiber = none ∨ s'.threadFiber = some .main)
    (hfiber : s'.fiber = s'.threadFiber) :
    Inv yields s' where
  scheduler := hscheduler
  threadFiber := hthread
  called n hn := hcalls ▸ hs.called n (hmain n hn)
  place := by
    have hat := hs.atMain hpc
    refine .inl ⟨hpc', ?_, ?_, fun f => ?_, hfiber⟩
    · rw [hreturned, hcalls, hat.returned]
    · rw [hran, hcalls, hat.ran]
    · rw [hcalls]
      exact (hat.parked f).congr (by rw [hstate]) (hctx f)

/-- After `GetThis` there is a main fiber, which is the current one. -/
theorem Inv.getThis (hs : Inv yields s) (hpc : s.pc = .main) :
    Inv yields s.getThis ∧ s.getThis.pc = .main ∧ s.getThis.fiber = some .main ∧
      s.getThis.threadFiber = some .main := by
  have hfiber := (hs.atMain hpc).fiber
  unfold Thread.getThis
  cases h : s.fiber with
  | none =>
    refine ⟨hs.quiet hpc hpc rfl rfl rfl rfl (fun f => ?_) (fun n hn => ?_) hs.scheduler
      (.inr rfl) rfl,
      hpc, rfl, rfl⟩
    · show Function.update s.ctx .main .constructor (.user f) = s.ctx (.user f)
      rw [Function.update_of_ne (by simp)]
    · have hset : Function.update s.ctx .main .constructor .main = .called n := hn
      rw [Function.update_self] at hset
      cases hset
  | some r =>
    have hthread : s.threadFiber = some .main := by
      rcases hs.threadFiber with hnone | hmain
      · rw [hfiber, hnone] at h
        cases h
      · exact hmain
    exact ⟨hs, hpc, hfiber.trans hthread, hthread⟩

theorem inv_step {l : Label} (hs : Inv yields s) (hguard : Returns yields useCaller s l)
    (h : step yields useCaller s l = some s') : Inv yields s' := by
  cases l with
  | getThis =>
    simp only [step, Option.ite_none_right_eq_some] at h
    obtain ⟨hpc, h⟩ := h
    exact Option.some.inj h ▸ (hs.getThis hpc).1
  | newScheduler =>
    simp only [step, Option.ite_none_right_eq_some] at h
    obtain ⟨⟨hpc, _⟩, h⟩ := h
    obtain rfl := Option.some.inj h
    obtain ⟨hinv, hpc', hfiber, hthread⟩ := hs.getThis hpc
    refine hinv.quiet hpc' hpc' rfl rfl rfl rfl (fun f => ?_) (fun n hn => ?_) (fun f h => ?_)
      (.inr hthread) (hfiber.trans hthread.symm)
    · show Function.update s.getThis.ctx .root .entry (.user f) = s.getThis.ctx (.user f)
      rw [Function.update_of_ne (by simp)]
    · have hset : Function.update s.getThis.ctx .root .entry .main = .called n := hn
      rwa [Function.update_of_ne (by simp)] at hset
    · cases h
  | dropScheduler =>
    simp only [step, Option.ite_none_right_eq_some] at h
    obtain ⟨⟨hpc, _⟩, h⟩ := h
    obtain rfl := Option.some.inj h
    exact hs.quiet hpc hpc rfl rfl rfl rfl (fun _ => rfl)
      (fun _ hn => hn) hs.scheduler hs.threadFiber
      (hs.atMain hpc).fiber
  | enterRun =>
    -- the scheduler fiber is now the main fiber, which is the current one
    simp only [step, Option.ite_none_right_eq_some] at h
    obtain ⟨⟨hpc, _⟩, h⟩ := h
    obtain rfl := Option.some.inj h
    obtain ⟨hinv, hpc', hfiber, hthread⟩ := hs.getThis hpc
    refine hinv.quiet hpc' hpc' rfl rfl rfl rfl (fun _ => rfl) (fun _ hn => hn) (fun f h => ?_)
      (.inr hthread) (hfiber.trans hthread.symm)
    rw [show s.getThis.fiber = some (.user f) from h] at hfiber
    cases hfiber
  | swapIn f =>
    simp only [step, Option.ite_none_right_eq_some] at h
    obtain ⟨hready, h⟩ := h
    obtain ⟨r, hr, hlive⟩ := hguard.1 f rfl hready
    exact Option.some.inj h ▸ hs.swapIn hready hr hlive
  | go =>
    simp only [step] at h
    split at h
    · next f i hpc =>
      obtain rfl := Option.some.inj h
      have hle := (hs.inside hpc).le
      by_cases hlt : i < yields f
      · rw [if_pos hlt]
        exact hs.yieldToHold hpc hlt
      · rw [if_neg hlt]
        obtain rfl : i = yields f := by omega
        exact hs.finish hpc (hguard.2 f rfl hpc)
    · cases h

theorem not_pingPong_of_crashed (hpc : s.pc = .crashed) : ¬ PingPong yields s := by
  intro h
  rcases h.place with ⟨hmain, _⟩ | ⟨calls, f, _, hsegment⟩
  · rw [hpc] at hmain
    cases hmain
  · rw [hpc] at hsegment
    cases hsegment

/-- Without a scheduler fiber the thread does not get into the fiber; and from
    `CallerMainFunc` it goes to what is saved in the main fiber, which is an older call if
    the scheduler fiber is another. -/
theorem step_breaks {l : Label} (hs : Inv yields s) (hguard : ¬ Returns yields useCaller s l) :
    ∃ s', step yields useCaller s l = some s' ∧ ¬ PingPong yields s' := by
  rw [Returns, not_and_or] at hguard
  rcases hguard with hguard | hguard
  · -- `swapIn` dereferences a scheduler fiber that is null or gone
    push Not at hguard
    obtain ⟨f, rfl, hready, hnone⟩ := hguard
    refine ⟨s.swapIn f, by simp [step, hready], not_pingPong_of_crashed ?_⟩
    show (match s.schedulerFiber with | none => _ | some r => _ : Thread).pc = .crashed
    split
    · rfl
    · next r hr =>
      show (if s.live r then _ else _ : Thread).pc = .crashed
      rw [if_neg (hnone r hr)]
  · -- `CallerMainFunc` loads what is in the main fiber, where nobody has saved this call
    push Not at hguard
    obtain ⟨f, rfl, hpc, huse, hne⟩ := hguard
    have hinside := hs.inside hpc
    let t : Thread := { s with ran := s.ran ++ [(f, yields f)] }.setState f .term
    refine ⟨t.back f .done, by simp [step, hpc, Thread.finish, huse, t], ?_⟩
    rw [back_eq (s := t) hinside.threadFiber]
    intro h
    have hctx :
        ({ t with fiber := some .main }.setCtx (.user f) .done).ctx .main = s.ctx .main := by
      show Function.update s.ctx (.user f) .done .main = s.ctx .main
      rw [Function.update_of_ne (by simp)]
    unfold Thread.resume at h
    rw [hctx] at h
    split at h
    · -- an older call returns for the second time
      next n hn =>
      have hold := hinside.older n hn hne
      rcases h.place with ⟨_, hreturned⟩ | ⟨_, _, _, hsegment⟩
      · have heq : n = s.calls.length := hreturned
        omega
      · cases hsegment
    · next hmain => cases hmain
    · next hmain => cases hmain
    · rcases h.place with ⟨hmain, _⟩ | ⟨_, _, _, hsegment⟩
      · cases hmain
      · cases hsegment

end invariant

/-! ### Every run -/

/-- For all fibers, with any numbers of segments, and every run of a thread, with a
    scheduler or without: the `i`-th `swapIn` of a fiber always runs its `i`-th segment and
    returns to its caller, if and only if each call finds a scheduler fiber and no fiber
    with `use_caller` ends where this is not the main fiber. -/
theorem pingPong_iff (yields : Nat → Nat) (useCaller : Nat → Bool) (ls : List Label) :
    (thread yields useCaller).Visits ls (PingPong yields) ↔
      (thread yields useCaller).Steps ls (Returns yields useCaller) :=
  System.visits_iff_steps inv_initial (fun _ hs => hs.pingPong)
    (fun _ _ _ hs hguard h => inv_step hs hguard h) (fun _ _ hs hguard => step_breaks hs hguard) ls

/-- A plain thread calls `GetThis` and `swapIn`. -/
theorem not_pingPong : ¬ ∀ (yields : Nat → Nat) (useCaller : Nat → Bool) (ls : List Label),
    (thread yields useCaller).Visits ls (PingPong yields) := by
  intro h
  have hlaw := h (fun _ => 2) (fun _ => false) [.getThis, .swapIn 0] _ _ List.prefix_rfl rfl
  exact not_pingPong_of_crashed rfl hlaw

/-- A pool thread runs a body of three segments, as in tests/fiber_test.cc. -/
example : (((thread (fun _ => 2) fun _ => false).exec .initial
    [.enterRun, .swapIn 0, .go, .swapIn 0, .go, .swapIn 0, .go]).map fun s =>
      (s.pc, s.returned, s.ran, s.state 0)) = some (.main, 3, [(0, 0), (0, 1), (0, 2)], .term) := by
  decide

end Gwn.Fiber
