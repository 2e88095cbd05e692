import Gwn.Framework.Pool
import Gwn.Scheduler.Exclusive

/-! # Callbacks that keep to themselves

    The use of the scheduler that tests/schedul_test.cc shows: callbacks that are
    scheduled for any thread, yield `READY` between their segments, may schedule
    further callbacks, and return or throw. This module provides:

    - `Body`, `Cont`, `callbacks`: such callbacks as code for the scheduler
    - `Record`: the callbacks scheduled so far and the log of what they did
    - `Orderly`: the calls of `start`, `stop` and `schedule` that go with them
    - `local_bound`: the callback in a fiber is the one the fiber was prepared for -/

namespace Gwn.Scheduler

open LTS

variable {C : Type}

/-! ### The code -/

/-- A callback: segments separated by `YieldToReady`, each the callbacks it
    schedules, and whether it ends by throwing. -/
structure Body (C : Type) where
  first : List C
  rest : List (List C)
  throws : Bool

/-- A callback at some point of its execution. `tag` is the number of the
    `schedule` call that it comes from. -/
structure Cont (C : Type) where
  tag : Nat
  code : C
  now : List C
  later : List (List C)
  throws : Bool
deriving DecidableEq

def Cont.start (prog : C → Body C) (tag : Nat) (c : C) : Cont C :=
  { tag := tag, code := c, now := (prog c).first, later := (prog c).rest,
    throws := (prog c).throws }

def Cont.resume [DecidableEq C] (prog : C → Body C) (k : Cont C) (a : Act (Cont C)) :
    Option (Cont C) :=
  match k.now, k.later, a with
  | c :: now, _, .schedule (some (.cb k')) (-1) =>
    if k' = .start prog k'.tag c then some { k with now := now } else none
  | [], seg :: later, .yieldToReady => some { k with now := seg, later := later }
  | [], [], .ret => if k.throws then none else some k
  | [], [], .throw => if k.throws then some k else none
  | _, _, _ => none

def callbacks [DecidableEq C] (prog : C → Body C) : Prog (Cont C) :=
  { resume := Cont.resume prog }

/-! ### Events -/

/-- What a callback does. -/
inductive Ev (C : Type) where
  /-- `MainFunc` calls it. -/
  | started
  | schedule (c : C)
  | yieldToReady
  | ret
  | throw
deriving DecidableEq

/-- The segments that are left, each with the yield before it, and the end. -/
def eventsLeft (throws : Bool) : List (List C) → List (Ev C)
  | [] => [if throws then .throw else .ret]
  | seg :: later => .yieldToReady :: (seg.map .schedule ++ eventsLeft throws later)

def Cont.rest (k : Cont C) : List (Ev C) :=
  k.now.map .schedule ++ eventsLeft k.throws k.later

/-- All that a callback does, in its own order. -/
def Body.script (b : Body C) : List (Ev C) :=
  .started :: (b.first.map .schedule ++ eventsLeft b.throws b.rest)

theorem script_eq (prog : C → Body C) (tag : Nat) (c : C) :
    (prog c).script = .started :: (Cont.start prog tag c).rest := rfl

/-- The event of an action. -/
def Act.ev : Act (Cont C) → Option (Ev C)
  | .schedule (some (.cb k)) _ => some (.schedule k.code)
  | .yieldToReady => some .yieldToReady
  | .ret => some .ret
  | .throw => some .throw
  | _ => none

/-- A callback goes through its events one by one. -/
theorem resume_cases [DecidableEq C] {prog : C → Body C} {k k' : Cont C} {a : Act (Cont C)}
    (h : k.resume prog a = some k') :
    k'.tag = k.tag ∧
      ((∃ tag c, a = .schedule (some (.cb (.start prog tag c))) (-1) ∧
          k.rest = .schedule c :: k'.rest) ∨
        a = .yieldToReady ∧ k.rest = .yieldToReady :: k'.rest ∨
        a = .ret ∧ k.rest = [.ret] ∨ a = .throw ∧ k.rest = [.throw]) := by
  unfold Cont.resume at h
  split at h
  · next _ c now k'' hnow =>
    split at h <;> cases h
    next hk =>
      refine ⟨rfl, .inl ⟨k''.tag, c, by rw [← hk], ?_⟩⟩
      simp [Cont.rest, hnow]
  · next seg later hnow hlater =>
    cases h
    refine ⟨rfl, .inr (.inl ⟨rfl, ?_⟩)⟩
    simp [Cont.rest, hnow, hlater, eventsLeft]
  · next hnow hlater =>
    split at h <;> cases h
    next hthrows =>
      refine ⟨rfl, .inr (.inr (.inl ⟨rfl, ?_⟩))⟩
      simp [Cont.rest, hnow, hlater, eventsLeft, hthrows]
  · next hnow hlater =>
    split at h <;> cases h
    next hthrows =>
      refine ⟨rfl, .inr (.inr (.inr ⟨rfl, ?_⟩))⟩
      simp [Cont.rest, hnow, hlater, eventsLeft, hthrows]
  · cases h

/-! ### The record of a run -/

/-- An event in the log: the callback that the fiber was prepared for, the
    callback whose code it was, and what it did. -/
structure Entry (C : Type) where
  behalf : Option Nat
  tag : Nat
  ev : Ev C

structure Record (C : Type) where
  /-- The callbacks scheduled so far, in order. -/
  jobs : List C
  /-- The callback that each fiber was last prepared for. -/
  owner : Nat → Option Nat
  log : List (Entry C)

def Record.empty : Record C :=
  { jobs := [], owner := fun _ => none, log := [] }

def nextOwner (g : Option Nat) : Event (Cont C) → Option Nat
  | .prepare k => some k.tag
  | _ => g

/-- The callback that a step schedules. -/
def Label.submitted : Label (Cont C) → List C
  | .ext (.schedule (some (.cb k)) _) | .act _ (.schedule (some (.cb k)) _) => [k.code]
  | _ => []

/-- What a step adds to the log. -/
def State.logged (s : State (Cont C)) (owner : Nat → Option Nat) :
    Label (Cont C) → List (Entry C)
  | .work w =>
    match (s.workers w).pc with
    | .on _ f (.inside .entry) =>
      match (s.heap f).cb with
      | some (.user k) => [⟨owner f, k.tag, .started⟩]
      | _ => []
    | _ => []
  | .act w a =>
    match (s.workers w).pc, a.ev with
    | .on _ f (.inside (.body (.user k))), some e => [⟨owner f, k.tag, e⟩]
    | _, _ => []
  | _ => []

def Record.next (r : Record C) (s : State (Cont C)) (l : Label (Cont C)) : Record C where
  jobs := r.jobs ++ l.submitted
  owner := advance nextOwner r.owner s l
  log := r.log ++ s.logged r.owner l

/-- `start` comes before `stop`, and `stop` once; callbacks are scheduled from
    outside before `stop`, for any thread; the tag of a callback is its number. -/
def Orderly (prog : C → Body C) (p : State (Cont C) × Record C) : Label (Cont C) → Prop
  | .start _ => p.1.autoStop = false
  | .stop => p.1.autoStop = false ∧ p.1.stoppingFlag = false
  | .ext (.schedule (some (.cb k)) thread) =>
    p.1.autoStop = false ∧ thread = -1 ∧ k = .start prog p.2.jobs.length k.code
  | .ext _ => False
  | .act _ (.schedule (some (.cb k)) _) => k.tag = p.2.jobs.length
  | _ => True

instance [DecidableEq C] (prog : C → Body C) (p : State (Cont C) × Record C)
    (l : Label (Cont C)) : Decidable (Orderly prog p l) := by
  unfold Orderly
  split <;> infer_instance

/-- The scheduler with such callbacks, and the record of what they do. -/
def recorded [DecidableEq C] (prog : C → Body C) (threads : Nat) (useCaller : Bool)
    (caller : Int) : System (State (Cont C) × Record C) (Label (Cont C)) :=
  ((scheduler (callbacks prog) threads useCaller caller).withHistory .empty Record.next).restrict
    (Orderly prog)

/-! ### Fibers and their callbacks -/

/-- Where a fiber goes on when it is entered next, or is now. -/
def Phase.point {K : Type} (x : Fiber K) : Phase K → Point K
  | .inside p | .switchOut p => p
  | .yielding _ c => .body c
  | _ => x.ctx

/-- At this point the fiber executes the callback it was prepared for. -/
def Fiber.Bound (x : Fiber (Cont C)) (owner : Option Nat) : Point (Cont C) → Prop
  | .entry => x.cb = none ∨ ∃ k, x.cb = some (.user k) ∧ owner = some k.tag
  | .body c => ∃ k, c = .user k ∧ owner = some k.tag
  | .done => True

/-- A fiber that is not an idle fiber never holds, and works for its owner from
    the preparation to the end. -/
def Working : Pos (Cont C) → Fiber (Cont C) → Option Nat → Prop
  | .free, x, g => x.state = .ready → x.Bound g x.ctx
  | .checked, x, g => x.state = .ready ∧ x.Bound g x.ctx
  | .on b ph, x, g => b ≠ .idle ∧ x.Bound g (ph.point x) ∧
      (x.state.finished = true → ph.point x = .done) ∧
        ∀ st c, ph = .yielding st c → st = .ready

/-- The local facts of callbacks. -/
def Employed (p : Pos (Cont C)) (x : Fiber (Cont C)) (g : Option Nat) : Prop :=
  Consistent p x ∧ (x.idle = false → x.state ≠ .hold ∧ Working p x g)

theorem Employed.fiberMove {b : Branch} {x x' : Fiber (Cont C)} {ph ph' : Phase (Cont C)}
    {g : Option Nat} (h : Employed (.on b ph) x g) (hm : FiberMove b x ph x' ph') :
    Employed (.on b ph') x' g := by
  refine ⟨h.1.fiberMove hm, fun hidle => ?_⟩
  have hidle' : x.idle = false := hm.idle_eq ▸ hidle
  obtain ⟨hhold, hb, hbound, hdone, hyield⟩ := h.2 hidle'
  cases hm with
  | setExec => exact ⟨nofun, hb, hbound, nofun, nofun⟩
  | call c hc =>
    refine ⟨hhold, hb, ?_, fun hfin => absurd (hdone hfin) nofun, nofun⟩
    rcases hbound with hnone | ⟨k, hk, hg⟩
    · rw [hnone] at hc
      cases hc
    · rw [hk] at hc
      cases hc
      exact ⟨k, rfl, hg⟩
  | callEmpty _ => exact ⟨nofun, hb, trivial, fun _ => rfl, nofun⟩
  | yield st c =>
    obtain rfl := hyield st c rfl
    exact ⟨nofun, hb, hbound, nofun, nofun⟩
  | save p => exact ⟨hhold, hb, hbound, hdone, nofun⟩
  | _ => exact ⟨hhold, hb, hbound, hdone, nofun⟩

theorem local_employed [DecidableEq C] (prog : C → Body C) :
    Local (callbacks prog) (fun _ _ => True) (fun x => x.state = .ready) none nextOwner
      Employed := by
  have hcons := local_consistent (callbacks prog) (fun _ _ => True)
    (fun x => x.state = .ready) none (nextOwner (C := C))
  -- the code in a fiber that is not an idle fiber
  have code : ∀ {b c c' a x g}, Employed (.on b (.inside (.body c))) x g → x.idle = false →
      c.resume (callbacks prog) a = some c' →
      ∃ k k', c = .user k ∧ c' = .user k' ∧ g = some k.tag ∧ k.resume prog a = some k' := by
    intro b c c' a x g h hidle hc
    obtain ⟨-, -, ⟨k, rfl, hg⟩, -, -⟩ := h.2 hidle
    obtain ⟨k', hk', rfl⟩ := Option.map_eq_some_iff.mp hc
    exact ⟨k, k', rfl, rfl, hg, hk'⟩
  exact {
    new k := ⟨hcons.new k, fun _ => ⟨nofun, nofun⟩⟩
    newIdle := ⟨hcons.newIdle, nofun⟩
    schedule p x g h := h
    take x g h hidle hx hripe :=
      ⟨hcons.take x g h.1 hidle hx hripe, fun _ => ⟨(h.2 hidle).1, hripe, (h.2 hidle).2 hripe⟩⟩
    checkDone x g h hx := by
      refine ⟨hcons.checkDone x g h.1 hx, fun hidle => ⟨(h.2 hidle).1, fun _ => (h.2 hidle).2.2⟩⟩
    checkFiber x g h hx := by
      refine ⟨hcons.checkFiber x g h.1 hx, fun hidle => ?_⟩
      obtain ⟨hhold, hready, hbound⟩ := h.2 hidle
      refine ⟨hhold, nofun, hbound, fun hfin => ?_, nofun⟩
      rw [hx] at hfin
      cases hfin
    prepareNew k :=
      ⟨hcons.prepareNew k, fun _ => ⟨nofun, nofun, .inr ⟨k, rfl, rfl⟩, nofun, nofun⟩⟩
    prepareOld x k g h hidle hx :=
      ⟨hcons.prepareOld x k g h.1 hidle hx,
        fun _ => ⟨nofun, nofun, .inr ⟨k, rfl, rfl⟩, nofun, nofun⟩⟩
    idleEnter x g h hidle hx :=
      ⟨hcons.idleEnter x g h.1 hidle hx, fun h' => absurd (hidle.symm.trans h') nofun⟩
    fiber b x ph x' ph' g h hm := h.fiberMove hm
    decrement b x g h hb := by
      refine ⟨hcons.decrement b x g h.1 hb, fun hidle => ?_⟩
      obtain ⟨hhold, -, hbound, hdone, -⟩ := h.2 hidle
      exact ⟨hhold, hb, hbound, hdone, nofun⟩
    requeue b x g h := by
      refine ⟨hcons.requeue b x g h.1, fun hidle => ?_⟩
      obtain ⟨hhold, -, hbound, -, -⟩ := h.2 hidle
      exact ⟨hhold, fun _ => hbound⟩
    leave b x g h hb hx := by
      refine ⟨hcons.leave b x g h.1 hb hx, fun hidle => ⟨(h.2 hidle).1, fun hready => ?_⟩⟩
      rw [hready] at hx
      cases hx
    setHold b x g h := by
      refine ⟨hcons.setHold b x g h.1, fun hidle => ?_⟩
      -- a callback's fiber never gets here
      obtain ⟨hhold, hb, -⟩ := h.2 hidle
      rcases h.1.2 with hst | ⟨hb', -⟩
      · exact absurd hst hhold
      · exact absurd hb' hb
    recycle b x g h hx := ⟨hcons.recycle b x g h.1 hx, fun _ => ⟨nofun, nofun⟩⟩
    goOn b c c' a x g h hc ha := by
      refine ⟨hcons.goOn b c c' a x g h.1 hc ha, fun hidle => ?_⟩
      obtain ⟨hhold, hb, -, hdone, -⟩ := h.2 hidle
      obtain ⟨k, k', rfl, rfl, hg, hk⟩ := code h hidle hc
      have htag : k'.tag = k.tag := (resume_cases hk).1
      exact ⟨hhold, hb, ⟨k', rfl, by rw [hg, htag]⟩, fun hfin => absurd (hdone hfin) nofun, nofun⟩
    yieldToReady b c c' x g h hc ha hx := by
      refine ⟨hcons.yieldToReady b c c' x g h.1 hc ha hx, fun hidle => ?_⟩
      obtain ⟨hhold, hb, -, hdone, -⟩ := h.2 hidle
      obtain ⟨k, k', rfl, rfl, hg, hk⟩ := code h hidle hc
      have htag : k'.tag = k.tag := (resume_cases hk).1
      refine ⟨hhold, hb, ⟨k', rfl, by rw [← htag] at hg; exact hg⟩,
        fun hfin => absurd (hdone hfin) nofun, ?_⟩
      rintro st c ⟨⟩
      rfl
    yieldToHold b c c' x g h hc ha hx := by
      refine ⟨hcons.yieldToHold b c c' x g h.1 hc ha hx, fun hidle => ?_⟩
      obtain ⟨k, k', rfl, rfl, hg, hk⟩ := code h hidle hc
      rcases (resume_cases hk).2 with ⟨_, _, hact, _⟩ | ⟨hact, _⟩ |
        ⟨hact, _⟩ | ⟨hact, _⟩ <;>
        cases hact
    ret b c c' x g h hc ha := by
      refine ⟨hcons.ret b c c' x g h.1 hc ha, fun hidle => ?_⟩
      exact ⟨nofun, (h.2 hidle).2.1, trivial, fun _ => rfl, nofun⟩
    throw b c c' x g h hc ha := by
      refine ⟨hcons.throw b c c' x g h.1 hc ha, fun hidle => ?_⟩
      exact ⟨nofun, (h.2 hidle).2.1, trivial, fun _ => rfl, nofun⟩ }

end Gwn.Scheduler
