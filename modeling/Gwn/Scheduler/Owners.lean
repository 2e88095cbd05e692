import Gwn.Scheduler.Handle
import Gwn.Scheduler.Solo

/-! # The owners of a fiber

    A fiber is destroyed when its last `Fiber::ptr` goes. `run` has pointers in the queue,
    in `ft`, `cb_fiber` and `idle_fiber`, and lets go of the last three while the fiber is
    suspended. What keeps it alive then are the locals `cur` of `MainFunc` and of
    `YieldToReady` or `YieldToHold`, which are on the stack of the fiber itself. This
    module provides:

    - `Owners`, `counted`: the scheduler with everything that owns a fiber, and `~Fiber`
    - `Survives`: no fiber is destroyed between its start and its end
    - `Rests`: where the context of a fiber is left, by its state
    - `Tally`: the locals `cur`, by where the fiber stands -/

namespace Gwn.Scheduler

open LTS

variable {K : Type} {P : Prog K}

/-! ### Locals on the stack of a fiber -/

/-- How many of the locals `cur` on the stack of one fiber point to it. -/
structure Curs where
  /-- Those of `MainFunc`. -/
  main : Nat
  /-- Those of `YieldToReady` and `YieldToHold`. -/
  yield : Nat
deriving DecidableEq

def Curs.zero : Curs :=
  { main := 0, yield := 0 }

/-- What a step of its worker does to the locals of a fiber. -/
def Curs.work (c : Curs) (x : Fiber K) : Phase K → Curs
  | .inside .entry =>
    match x.cb with
    | some _ => { c with main := c.main + 1 }
    | none => c -- `cur` is taken, and reset behind the `catch`
  | .switchIn =>
    match x.ctx with
    | .body _ => { c with yield := c.yield - 1 } -- the yield returns
    | .entry | .done => c
  | _ => c

/-- What the code inside the fiber does to them. -/
def Curs.act (c : Curs) : Act K → Curs
  | .yieldToReady | .yieldToHold => { c with yield := c.yield + 1 }
  | .ret | .throw => { c with main := c.main - 1 } -- `cur.reset()` at the end of `MainFunc`
  | .schedule _ _ | .newFiber _ _ | .stopping _ => c

/-! ### All owners -/

structure Owners where
  /-- `ft.fiber` of each worker. -/
  ft : Nat → Option Nat
  /-- How many pointers user code has, wherever it keeps them. -/
  copies : Nat → Nat
  curs : Nat → Curs
  /-- `~Fiber` has run. -/
  destroyed : Nat → Bool
  /-- The assertion of `~Fiber` has failed, for some fiber with a stack. -/
  failed : Bool

namespace Owners

def initial : Owners :=
  { ft := fun _ => none, copies := fun _ => 0, curs := fun _ => .zero, destroyed := fun _ => false,
    failed := false }

/-- User code gets another pointer to `f`. -/
def gain (o : Owners) (f : Nat) : Owners :=
  { o with copies := Function.update o.copies f (o.copies f + 1) }

/-- It lets go of one. -/
def lose (o : Owners) (f : Nat) : Owners :=
  { o with copies := Function.update o.copies f (o.copies f - 1) }

/-- The locals of a worker that is in `run`. -/
def locals (o : Owners) (s : State K) (w : Nat) : List Nat :=
  if (s.workers w).pc.hasExited then []
  else [o.ft w, (s.workers w).cbFiber, (s.workers w).idleFiber].filterMap id

/-- The owners of `f` that are not on its own stack. -/
def outside (o : Owners) (s : State K) (f : Nat) : Nat :=
  (queuedFibers s.fibers ++ (List.range s.nworkers).flatMap (o.locals s)).count f + o.copies f

/-- `use_count()`. -/
def count (o : Owners) (s : State K) (f : Nat) : Nat :=
  o.outside s f + ((o.curs f).main + (o.curs f).yield)

/-- `~Fiber`, for every fiber that is left without owner in state `s`. -/
def settle (o : Owners) (s : State K) : Owners :=
  { o with
    destroyed := fun f => o.destroyed f || decide (f < s.nfib ∧ o.count s f = 0)
    failed := o.failed || (List.range s.nfib).any fun f =>
      !o.destroyed f && decide (o.count s f = 0) && !(s.heap f).state.resettable }

end Owners

/-- `ft.fiber` after a step of worker `w`: reset at the top of the loop and at the end of
    the two branches for tasks. -/
def State.ftAfter (s : State K) (w : Nat) (ft : Option Nat) : Option Nat :=
  match (s.workers w).pc with
  | .scan =>
    match scanQueue s.heap (s.workers w).tid s.fibers with
    | some (e, _) => e.task.fiber?
    | none => none
  | .on .task f .testDone => if (s.heap f).state.finished then none else ft
  | .on .task _ .requeue | .on .task _ .setHold | .on .cb _ .requeue | .on .cb _ .setHold
  | .on .cb _ .recycle => none
  | _ => ft

/-- The locals `cur` after a step. -/
def State.cursAfter (s : State K) (c : Nat → Curs) : Label K → Nat → Curs
  | .work w =>
    match (s.workers w).pc with
    | .on _ f ph => Function.update c f ((c f).work (s.heap f) ph)
    | _ => c
  | .act w a =>
    match (s.workers w).pc with
    | .on _ f _ => Function.update c f ((c f).act a)
    | _ => c
  | .start _ | .stop | .ctl | .ext _ => c

/-- What a step of the scheduler does, before any fiber is destroyed. Whoever makes a fiber
    has a pointer to it. -/
def Owners.next (o : Owners) (s : State K) (l : Label K) : Owners :=
  { o with
    ft := match l with
      | .work w => Function.update o.ft w (s.ftAfter w (o.ft w))
      | _ => o.ft
    copies := match l with
      | .ext (.newFiber _ f) | .act _ (.newFiber _ f) => (o.gain f).copies
      | _ => o.copies
    curs := s.cursAfter o.curs l }

inductive OwnerLabel (K : Type) where
  | run (l : Label K)
  /-- The task that worker `w` executes keeps the result of `GetThis()`, or hands it on. -/
  | getThis (w : Nat)
  /-- Somebody copies a pointer. -/
  | copy (f : Nat)
  /-- Somebody lets go of one. -/
  | drop (f : Nat)
deriving DecidableEq

/-- The scheduler with the owners of its fibers; a fiber is scheduled by those who have a
    pointer to it. -/
def counted (P : Prog K) (threads : Nat) (useCaller : Bool) (caller : Int) :
    System (State K × Owners) (OwnerLabel K) where
  init := (.initial threads useCaller caller, .initial)
  step p l :=
    match l with
    | .run l =>
      if ∀ f ∈ l.scheduled, 0 < p.2.copies f then
        (step P p.1 l).map fun s' => (s', (p.2.next p.1 l).settle s')
      else none
    | .getThis w => (p.1.current w).map fun f => (p.1, p.2.gain f)
    | .copy f => if 0 < p.2.copies f then some (p.1, p.2.gain f) else none
    | .drop f => if 0 < p.2.copies f then some (p.1, (p.2.lose f).settle p.1) else none

/-! ### What is claimed -/

/-- Started and not finished. -/
def FiberState.underway : FiberState → Bool
  | .hold | .exec | .ready => true
  | _ => false

structure Survives (p : State K × Owners) : Prop where
  /-- A fiber that has started and not finished has an owner. -/
  underway : ∀ f, f < p.1.nfib → (p.1.heap f).state.underway = true →
    0 < p.2.count p.1 f ∧ p.2.destroyed f = false
  /-- While it is suspended its own stack has two, whatever `run` lets go of. -/
  suspended : ∀ f, f < p.1.nfib → (p.1.heap f).state = .hold ∨ (p.1.heap f).state = .ready →
    p.2.curs f = { main := 1, yield := 1 }
  /-- What a worker has in hand it has a pointer to. -/
  inHand : ∀ w f, (p.1.workers w).pc.hand = some f → 0 < p.2.outside p.1 f
  /-- A fiber that has not started, or has finished, has none on its stack, and is destroyed
      as soon as it has none elsewhere. -/
  ended : ∀ f, f < p.1.nfib → (p.1.heap f).state.underway = false →
    p.2.curs f = .zero ∧ (p.2.destroyed f = true ↔ p.2.outside p.1 f = 0)
  /-- Nobody has a pointer to what is destroyed. -/
  gone : ∀ f, p.2.destroyed f = true → p.2.count p.1 f = 0
  asserts : p.2.failed = false

/-! ### Where contexts are left -/

/-- State and context of a fiber that nobody executes. -/
def Fiber.Rests (x : Fiber K) : Prop :=
  x.state = .init ∧ x.ctx = .entry ∨ x.state ≠ .init ∧ x.LeftAt x.ctx

/-- The same by where the fiber stands in `run`. -/
def RestsAt (p : Pos K) (x : Fiber K) (_ : Unit) : Prop :=
  Consistent p x ∧ match p with
    | .free | .checked | .on _ .assertNotExec | .on _ .setExec => x.Rests
    | .on _ .switchIn | .on _ (.inside _) | .on _ (.yielding _ _) => True
    | .on _ (.switchOut p) => x.LeftAt p
    | .on _ .returned | .on _ .testReady | .on _ .requeue | .on _ .testDone | .on _ .recycle =>
      x.LeftAt x.ctx
    | .on _ .setHold => ∃ c, x.ctx = .body c

theorem RestsAt.fiberMove {b : Branch} {x x' : Fiber K} {ph ph' : Phase K}
    (h : RestsAt (.on b ph) x ()) (hm : FiberMove b x ph x' ph') : RestsAt (.on b ph') x' () := by
  obtain ⟨hcons, h⟩ := h
  refine ⟨hcons.fiberMove hm, ?_⟩
  cases hm with
  | assertNotExec _ => exact h
  | setExec => trivial
  | switchIn => trivial
  | call c _ => trivial
  | callEmpty _ => exact rfl
  | yield st c =>
    show Fiber.LeftAt { x with state := st } (.body c)
    rcases hcons.2.2 with rfl | rfl <;> exact ⟨c, rfl⟩
  | save p => exact h
  | back _ => exact h
  | isReady _ => exact h
  | notReady _ => exact h
  | notDone hx => exact Fiber.LeftAt.body h hx
  | isDone _ _ => exact h

theorem local_restsAt (P : Prog K) :
    Local P (fun _ _ => True) (fun _ => True) () (fun _ _ => ()) RestsAt := by
  have hcons := local_consistent P (fun _ _ => True) (fun _ => True) () fun _ _ => ()
  exact {
    new k := ⟨hcons.new k, .inl ⟨rfl, rfl⟩⟩
    newIdle := ⟨hcons.newIdle, .inl ⟨rfl, rfl⟩⟩
    schedule p x g h := h
    take x g h hidle hx hripe := h
    checkDone x g h hx := h
    checkFiber x g h hx := h
    prepareNew k := ⟨hcons.prepareNew k, .inl ⟨rfl, rfl⟩⟩
    prepareOld x k g h hidle hx := ⟨hcons.prepareOld x k g h.1 hidle hx, .inl ⟨rfl, rfl⟩⟩
    idleEnter x g h hidle hx := h
    fiber b x ph x' ph' g h hm := h.fiberMove hm
    decrement b x g h hb := h
    requeue b x g h := by
      refine ⟨hcons.requeue b x g h.1, .inr ⟨?_, h.2⟩⟩
      rw [h.1.2]
      exact nofun
    leave b x g h hb hx := by
      refine ⟨hcons.leave b x g h.1 hb hx, .inr ⟨?_, h.2⟩⟩
      intro hinit
      rw [hinit] at hx
      cases hx
    setHold b x g h := ⟨hcons.setHold b x g h.1, .inr ⟨nofun, h.2⟩⟩
    recycle b x g h hx := ⟨hcons.recycle b x g h.1 hx, .inl ⟨rfl, rfl⟩⟩
    goOn b c c' a x g h hc ha := ⟨hcons.goOn b c c' a x g h.1 hc ha, trivial⟩
    yieldToReady b c c' x g h hc ha hx := ⟨hcons.yieldToReady b c c' x g h.1 hc ha hx, trivial⟩
    yieldToHold b c c' x g h hc ha hx := ⟨hcons.yieldToHold b c c' x g h.1 hc ha hx, trivial⟩
    ret b c c' x g h hc ha := ⟨hcons.ret b c c' x g h.1 hc ha, rfl⟩
    throw b c c' x g h hc ha := ⟨hcons.throw b c c' x g h.1 hc ha, rfl⟩ }

/-! ### The locals `cur`, by where the fiber stands -/

/-- Those on a stack whose context is left at this point: at a yield there are both. -/
def Point.curs : Point K → Curs
  | .body _ => { main := 1, yield := 1 }
  | .entry | .done => .zero

/-- Those of the fiber in hand. -/
def Phase.curs (x : Fiber K) : Phase K → Curs
  | .inside (.body _) => { main := 1, yield := 0 }
  | .inside .entry | .inside .done => .zero
  | .yielding _ _ => { main := 1, yield := 1 }
  | .switchOut p => p.curs
  | _ => x.ctx.curs

/-- Those of fiber `f`, when the worker is here. -/
def PC.curs (f : Nat) (x : Fiber K) : PC K → Curs
  | .on _ g ph => if g = f then ph.curs x else x.ctx.curs
  | _ => x.ctx.curs

theorem PC.curs_on (b : Branch) (f : Nat) (x : Fiber K) (ph : Phase K) :
    PC.curs f x (.on b f ph) = ph.curs x :=
  if_pos rfl

/-- Before the switch into it, too, the context of a fiber is left. -/
theorem PC.curs_before (f : Nat) (x : Fiber K) {b : Branch} {g : Nat} :
    PC.curs f x (.on b g .assertNotExec) = x.ctx.curs :=
  ite_self _

/-- The context of a fiber that is not in hand is left. -/
theorem PC.curs_of_ne {pc : PC K} {f : Nat} (h : pc.hand ≠ some f) (x : Fiber K) :
    pc.curs f x = x.ctx.curs := by
  cases pc with
  | on b g ph =>
    have hne : g ≠ f := fun heq => h (congrArg some heq)
    exact if_neg hne
  | _ => rfl

theorem FiberMove.curs {b : Branch} {x x' : Fiber K} {ph ph' : Phase K}
    (h : FiberMove b x ph x' ph') : (ph.curs x).work x ph = ph'.curs x' := by
  cases h with
  | switchIn =>
    obtain ⟨state, cb, ctx, saved, idle⟩ := x
    cases ctx <;> rfl
  | call c hcb =>
    show (match x.cb with
      | some _ => _
      | none => _) = _
    rw [hcb]
    rfl
  | callEmpty hcb =>
    show (match x.cb with
      | some _ => _
      | none => _) = _
    rw [hcb]
    rfl
  | _ => rfl

theorem CodeMove.curs {c c' : Code K} {a : Act K} {x x' : Fiber K} {ph : Phase K}
    (h : CodeMove c' a x x' ph) : (Phase.curs x (.inside (.body c))).act a = ph.curs x' := by
  cases h <;> rfl

/-- What `~Fiber` asserts. -/
theorem FiberState.resettable_eq (st : FiberState) : st.resettable = !st.underway := by
  cases st <;> rfl

/-- Those of a fiber that nobody executes, by its state. -/
def FiberState.curs (st : FiberState) : Curs :=
  if st.underway then { main := 1, yield := 1 } else .zero

theorem FiberState.curs_resettable {st : FiberState} (h : st.resettable = true) :
    st ≠ .exec ∧ st.curs = .zero := by
  cases st with
  | init | term | except => exact ⟨nofun, rfl⟩
  | hold | exec | ready => cases h

theorem Fiber.LeftAt.curs {x : Fiber K} {p : Point K} (h : x.LeftAt p) (hinit : x.state ≠ .init)
    (hexec : x.state ≠ .exec) : p.curs = x.state.curs := by
  cases hx : x.state with
  | init => exact absurd hx hinit
  | exec => exact absurd hx hexec
  | hold | ready =>
    obtain ⟨c, rfl⟩ := h.body (by rw [hx]; rfl)
    rfl
  | term | except =>
    rw [h.done (by rw [hx]; rfl)]
    rfl

theorem Fiber.Rests.curs {x : Fiber K} (h : x.Rests) (hexec : x.state ≠ .exec) :
    x.ctx.curs = x.state.curs := by
  rcases h with ⟨hinit, hctx⟩ | ⟨hinit, hleft⟩
  · rw [hinit, hctx]
    rfl
  · exact hleft.curs hinit hexec

theorem FiberState.left.not_init {st : FiberState} (h : st.left = true) : st ≠ .init := by
  intro hinit
  rw [hinit] at h
  cases h

/-- A fiber in hand that is not executed at the moment. -/
theorem RestsAt.curs {b : Branch} {ph : Phase K} {x : Fiber K} (h : RestsAt (.on b ph) x ())
    (hexec : x.state ≠ .exec) : ph.curs x = x.state.curs := by
  obtain ⟨hcons, h⟩ := h
  -- from the switch into the fiber to its yield or end the state is `EXEC`
  cases ph with
  | assertNotExec => exact h.curs hexec
  | setExec => exact h.curs hexec
  | switchIn => exact absurd hcons.2 hexec
  | inside p => exact absurd hcons.2 hexec
  | yielding st c => exact absurd hcons.2.1 hexec
  | switchOut p => exact h.curs (FiberState.left.not_init hcons.2) hexec
  | returned => exact h.curs (FiberState.left.not_init hcons.2) hexec
  | testReady => exact h.curs (FiberState.left.not_init hcons.2) hexec
  | testDone => exact h.curs (FiberState.left.not_init hcons.2.1) hexec
  | requeue =>
    refine Fiber.LeftAt.curs h ?_ hexec
    rw [hcons.2]
    exact nofun
  | setHold =>
    obtain ⟨c, hctx⟩ := h
    have hst : x.state.underway = true := by
      rcases hcons.2 with hst | ⟨-, hst⟩ <;> rw [hst] <;> rfl
    show x.ctx.curs = _
    rw [hctx, FiberState.curs, if_pos hst]
    rfl
  | recycle =>
    refine Fiber.LeftAt.curs h ?_ hexec
    have hfin : x.state.finished = true := hcons.2
    intro hinit
    rw [hinit] at hfin
    cases hfin

/-- The locals are where the worker and the contexts are. -/
structure Tally (s : State K) (c : Nat → Curs) : Prop where
  made : ∀ f, f < s.nfib → c f = s.last.pc.curs f (s.heap f)
  fresh : ∀ f, s.nfib ≤ f → c f = .zero

namespace Tally

variable {s t : State K} {c : Nat → Curs}

/-- Nothing changes that the locals depend on. -/
theorem congr (h : Tally s c) (hheap : t.heap = s.heap) (hnfib : t.nfib = s.nfib)
    (hcurs : ∀ f x, t.last.pc.curs f x = s.last.pc.curs f x) : Tally t c := by
  refine ⟨fun f hf => ?_, fun f hf => ?_⟩
  · rw [hcurs, hheap]
    exact h.made f (hnfib ▸ hf)
  · exact h.fresh f (hnfib ▸ hf)

/-- One fiber changes, and no other is in hand before or after. -/
theorem update (h : Tally s c) {f : Nat} {x : Fiber K} (hf : f < s.nfib)
    (hbefore : ∀ g, g ≠ f → s.last.pc.hand ≠ some g)
    (hafter : ∀ g, g ≠ f → t.last.pc.hand ≠ some g)
    (hheap : t.heap = Function.update s.heap f x) (hnfib : t.nfib = s.nfib) {v : Curs}
    (hv : v = t.last.pc.curs f x) : Tally t (Function.update c f v) := by
  refine ⟨fun g hg => ?_, fun g hg => ?_⟩
  · by_cases hgf : g = f
    · rw [hgf, hheap, Function.update_self, Function.update_self]
      exact hv
    · rw [hheap, Function.update_of_ne hgf, Function.update_of_ne hgf,
        PC.curs_of_ne (hafter g hgf), h.made g (hnfib ▸ hg), PC.curs_of_ne (hbefore g hgf)]
  · rw [hnfib] at hg
    rw [Function.update_of_ne (by omega)]
    exact h.fresh g hg

/-- A fiber is created. -/
theorem alloc (h : Tally s c) (hlt : ∀ f, s.last.pc.hand = some f → f < s.nfib) (cb : Code K)
    (idle : Bool) :
    Tally (s.alloc (.new cb idle)) c := by
  refine ⟨fun f hf => ?_, fun f hf => h.fresh f ?_⟩
  · show c f = s.last.pc.curs f _
    by_cases hnew : f = s.nfib
    · have hne : s.last.pc.hand ≠ some f := by
        intro hhand
        have := hlt f hhand
        omega
      rw [PC.curs_of_ne hne, h.fresh f (by omega), hnew, s.alloc_self]
      rfl
    · rw [s.alloc_ne f _ hnew]
      have hlt : f < s.nfib + 1 := hf
      exact h.made f (by omega)
  · have hle : s.nfib + 1 ≤ f := hf
    omega

end Tally

/-! ### The invariant -/

/-- The fiber that `ft` holds, as long as `run` may use it. -/
def PC.ft : PC K → Option Nat
  | .check (some (.fiber f)) => some f
  | .on .task f _ => some f
  | _ => none

/-- What `run` and the stacks own. -/
structure Accounts (s : State K) (o : Owners) : Prop where
  wf : WellFormed s
  single : Single s
  owned : Owned (fun _ => True) () RestsAt s fun _ => ()
  tally : Tally s o.curs
  ft : ∀ w f, (s.workers w).pc.ft = some f → o.ft w = some f
  absent : ∀ w, s.nworkers ≤ w → o.ft w = none

namespace Owners

variable {s : State K} {o : Owners}

/-- `f` is a local of worker `w`. -/
def Local (o : Owners) (s : State K) (f w : Nat) : Prop :=
  (s.workers w).pc ≠ .exited ∧
    (o.ft w = some f ∨ (s.workers w).cbFiber = some f ∨ (s.workers w).idleFiber = some f)

theorem mem_locals {f w : Nat} : f ∈ o.locals s w ↔ o.Local s f w := by
  unfold locals Local
  by_cases hexit : (s.workers w).pc.hasExited = true
  · rw [if_pos hexit]
    simp [PC.exited_of_hasExited hexit]
  · have hpc : (s.workers w).pc ≠ .exited := by
      intro hpc
      rw [hpc] at hexit
      exact hexit rfl
    rw [if_neg hexit]
    simp [hpc, eq_comm]

theorem outside_pos {f : Nat} : 0 < o.outside s f ↔
    f ∈ queuedFibers s.fibers ∨ (∃ w, w < s.nworkers ∧ o.Local s f w) ∨
      0 < o.copies f := by
  unfold outside
  rw [Nat.add_pos_iff_pos_or_pos, List.count_pos_iff, List.mem_append, List.mem_flatMap, or_assoc]
  simp only [List.mem_range, mem_locals]

end Owners

theorem PC.ne_exited_of_hand {pc : PC K} {f : Nat} (h : pc.hand = some f) : pc ≠ .exited := by
  intro hpc
  rw [hpc] at h
  cases h

theorem PC.hand_cases {pc : PC K} {f : Nat} (h : pc.hand = some f) :
    pc = .check (some (.fiber f)) ∨ ∃ b ph, pc = .on b f ph := by
  unfold hand at h
  split at h
  · rw [Option.some.inj h]
    exact .inl rfl
  · rw [Option.some.inj h]
    exact .inr ⟨_, _, rfl⟩
  · cases h

section steps
variable {s t : State K}

/-! ### What a step does to `ft` and `cur`, and to the locals of `run` -/

/-- `ft = *it`. -/
theorem ftAfter_scan {w : Nat} {e : FiberAndThread K} {q : List (FiberAndThread K)}
    (hpc : (s.workers w).pc = .scan)
    (hq : scanQueue s.heap (s.workers w).tid s.fibers = some (e, q))
    (ft : Option Nat) : s.ftAfter w ft = e.task.fiber? := by
  simp only [State.ftAfter, hpc, hq]

/-- A move on the fiber in hand leaves `ft` alone. -/
theorem ftAfter_fiber {w : Nat} {b : Branch} {f : Nat} {ph ph' : Phase K} {x : Fiber K}
    (hpc : (s.workers w).pc = .on b f ph) (hx : FiberMove b (s.heap f) ph x ph') (ft : Option Nat) :
    s.ftAfter w ft = ft := by
  unfold State.ftAfter
  rw [hpc]
  cases hx with
  | notDone hfin => cases b <;> simp [hfin]
  | isDone hb _ =>
    rw [hb]
  | _ => cases b <;> rfl

/-- So does an assertion that fails. -/
theorem ftAfter_fails {w : Nat} {e : Fault} (hfails : Fails s (.work w) e) {f : Nat}
    (hf : (s.workers w).pc.ft = some f) (ft : Option Nat) : s.ftAfter w ft = ft := by
  unfold State.ftAfter
  cases hfails with
  | @swapInExec _ b g hpc _ =>
    rw [hpc]
    cases b <;> rfl
  | reset hpc _ _ => rw [hpc]
  | @recycle _ b g hpc _ =>
    rw [hpc] at hf ⊢
    cases b with
    | task | idle => rfl
    | cb => cases hf
  | @neverReach _ b g hpc =>
    rw [hpc]
    cases b <;> rfl

theorem PC.ft_on {b : Branch} {g : Nat} {ph ph' : Phase K} :
    PC.ft (.on b g ph) = PC.ft (.on b g ph') := by
  cases b <;> rfl

/-- `ft` is filled from the queue. -/
theorem ftAfter_some {w : Nat} {ft : Option Nat} {f : Nat} (h : s.ftAfter w ft = some f) :
    ft = some f ∨ f ∈ queuedFibers s.fibers := by
  unfold State.ftAfter at h
  split at h
  · split at h
    · next e q hq =>
      obtain ⟨pre, post, hfibers, -⟩ := scanQueue_some hq
      refine .inr (mem_queuedFibers.mpr ⟨e, ?_, Task.fiber?_eq.mp h⟩)
      rw [hfibers]
      simp
    · cases h
  · split at h
    · cases h
    · exact .inl h
  all_goals first | exact .inl h | cases h

/-- Only the locals on the stack of the fiber in hand change. -/
theorem cursAfter_of_free {c : Nat → Curs} (l : Label K) {f : Nat}
    (hfree : ∀ w, (s.workers w).pc.hand ≠ some f) : s.cursAfter c l f = c f := by
  have other :
      ∀ {w b g ph} (v : Curs), (s.workers w).pc = .on b g ph →
        Function.update c g v f = c f := by
    intro w b g ph v hpc
    have hfg : f ≠ g := by
      intro heq
      refine hfree w ?_
      rw [hpc, heq]
      rfl
    rw [Function.update_of_ne hfg]
  cases l with
  | work w =>
    cases hpc : (s.workers w).pc with
    | on b g ph =>
      simp only [State.cursAfter, hpc]
      exact other _ hpc
    | _ => simp only [State.cursAfter, hpc]
  | act w a =>
    cases hpc : (s.workers w).pc with
    | on b g ph =>
      simp only [State.cursAfter, hpc]
      exact other _ hpc
    | _ => simp only [State.cursAfter, hpc]
  | _ => rfl

/-- `cb_fiber` and `idle_fiber` are what they were, or a new fiber. -/
theorem Move.keeps_own {l : Label K} (hm : Move P s l t) (w : Nat) {f : Nat} (hf : f < s.nfib) :
    ((t.workers w).cbFiber = some f → (s.workers w).cbFiber = some f) ∧
      ((t.workers w).idleFiber = some f → (s.workers w).idleFiber = some f) := by
  have hnew : some s.nfib ≠ some f := fun heq => Nat.ne_of_gt hf (Option.some.inj heq)
  have work : ∀ {v : Nat} {y : Worker K}, t.workers = Function.update s.workers v y →
      (y.cbFiber = some f → (s.workers v).cbFiber = some f) →
      (y.idleFiber = some f → (s.workers v).idleFiber = some f) →
      ((t.workers w).cbFiber = some f → (s.workers w).cbFiber = some f) ∧
        ((t.workers w).idleFiber = some f → (s.workers w).idleFiber = some f) := by
    intro v y hworkers hcb hidle
    by_cases hwv : w = v
    · rw [hwv, hworkers, Function.update_self]
      exact ⟨hcb, hidle⟩
    · rw [hworkers, Function.update_of_ne hwv]
      exact ⟨id, id⟩
  cases hm with
  | fails _ => exact ⟨id, id⟩
  | extSchedule _ => exact ⟨id, id⟩
  | extNew => exact ⟨id, id⟩
  | owner _ hown =>
    exact ⟨hown.of_worker (·.cbFiber) fun _ => rfl, hown.of_worker (·.idleFiber) fun _ => rfl⟩
  | prelude _ => exact work rfl id fun h => absurd h hnew
  | prepareNew _ _ => exact work rfl (fun h => absurd h hnew) id
  | requeue _ => exact work rfl cbFiber_of_dropped id
  | setHold _ => exact work rfl cbFiber_of_dropped id
  | _ => exact work rfl id id

theorem Move.nworkers_le {l : Label K} (hm : Move P s l t) : s.nworkers ≤ t.nworkers := by
  cases hm with
  | owner _ hown => exact hown.grow
  | _ => exact Nat.le_refl _

/-- Into the queue goes what somebody schedules, or what a worker has in hand. -/
theorem Move.mem_queued {l : Label K} (hm : Move P s l t) {f : Nat}
    (hf : f ∈ queuedFibers t.fibers) :
    f ∈ queuedFibers s.fibers ∨ l.scheduled = some f ∨
      ∃ w, (s.workers w).pc.hand = some f := by
  have pushed : ∀ (fc : Option (Task K)) (thread : Int),
      f ∈ queuedFibers (scheduleNoLock s.fibers fc thread) →
      f ∈ queuedFibers s.fibers ∨ fc = some (.fiber f) := by
    intro fc thread hmem
    obtain ⟨e, he, htask⟩ := mem_queuedFibers.mp hmem
    rcases mem_scheduleNoLock.mp he with he | ⟨task, hfc, he⟩
    · exact .inl (mem_queuedFibers.mpr ⟨e, he, htask⟩)
    · rw [he] at htask
      rw [hfc, show task = .fiber f from htask]
      exact .inr rfl
  cases hm with
  | extSchedule _ =>
    rcases pushed _ _ hf with hold | hfc
    · exact .inl hold
    · rw [hfc]
      exact .inr (.inl rfl)
  | codeSchedule _ _ _ =>
    rcases pushed _ _ hf with hold | hfc
    · exact .inl hold
    · rw [hfc]
      exact .inr (.inl rfl)
  | @requeue w b g hpc =>
    rcases pushed (some (.fiber g)) (-1) hf with hold | hfc
    · exact .inl hold
    · cases hfc
      exact .inr (.inr ⟨w, by rw [hpc]; rfl⟩)
  | owner _ hown =>
    rw [hown.fibers] at hf
    exact .inl hf
  | scanSome _ hq =>
    obtain ⟨pre, post, hfibers, rfl, -⟩ := scanQueue_some hq
    obtain ⟨e, he, htask⟩ := mem_queuedFibers.mp hf
    refine .inl (mem_queuedFibers.mpr ⟨e, ?_, htask⟩)
    rw [hfibers]
    rcases List.mem_append.mp he with he | he
    · exact List.mem_append_left _ he
    · exact List.mem_append_right _ (List.mem_cons_of_mem _ he)
  | _ => exact .inl hf

end steps

namespace Accounts

variable {s t : State K} {o : Owners}

/-- What a worker has in hand it has a pointer to. -/
theorem inHand (h : Accounts s o) {w f : Nat} (hhand : (s.workers w).pc.hand = some f) :
    0 < o.outside s f := by
  have hlive := PC.ne_exited_of_hand hhand
  rw [Owners.outside_pos]
  refine .inr (.inl ⟨w, h.wf.lt_nworkers hlive, hlive, ?_⟩)
  rcases PC.hand_cases hhand with hpc | ⟨b, ph, hpc⟩
  · exact .inl (h.ft w f (by rw [hpc]; rfl))
  · cases b with
    | task => exact .inl (h.ft w f (by rw [hpc]; rfl))
    | cb => exact .inr (.inl ((h.wf.worker w).cbBranch f ph hpc))
    | idle => exact .inr (.inr ((h.wf.worker w).idleBranch f ph hpc))

/-- A fiber in nobody's hand rests, and its locals are those of a context that is left. -/
theorem rests (h : Accounts s o) {f : Nat} (hf : f < s.nfib)
    (hfree : ∀ w, (s.workers w).pc.hand ≠ some f) :
    (s.heap f).Rests ∧ o.curs f = (s.heap f).ctx.curs := by
  refine ⟨(h.owned.free f trivial hf hfree).2, ?_⟩
  rw [h.tally.made f hf]
  exact PC.curs_of_ne (hfree _) _

/-- The locals of a fiber by its state, unless it is being executed. -/
theorem curs_eq (h : Accounts s o) {f : Nat} (hf : f < s.nfib)
    (hexec : (s.heap f).state ≠ .exec) :
    o.curs f = (s.heap f).state.curs := by
  by_cases hfree : ∀ w, (s.workers w).pc.hand ≠ some f
  · obtain ⟨hrests, hcurs⟩ := h.rests hf hfree
    rw [hcurs, hrests.curs hexec]
  · push Not at hfree
    obtain ⟨w, hhand⟩ := hfree
    rw [h.tally.made f hf, h.single.last_eq h.wf (PC.ne_exited_of_hand hhand)]
    rcases PC.hand_cases hhand with hpc | ⟨b, ph, hpc⟩
    · have hchecked : RestsAt .checked (s.heap f) () := h.owned.checked w f trivial hpc
      rw [hpc]
      exact hchecked.2.curs hexec
    · rw [hpc, PC.curs_on]
      exact (h.owned.on w b f ph trivial hpc).curs hexec

/-- Started and not finished: in hand, or kept by its own stack. -/
theorem count_pos (h : Accounts s o) {f : Nat} (hf : f < s.nfib)
    (hx : (s.heap f).state.underway = true) :
    0 < o.count s f := by
  unfold Owners.count
  by_cases hfree : ∀ w, (s.workers w).pc.hand ≠ some f
  · -- the two locals `cur` are left, whatever `run` and the users have let go of
    have hexec : (s.heap f).state ≠ .exec := (h.owned.free f trivial hf hfree).1.2
    rw [h.curs_eq hf hexec, FiberState.curs, if_pos hx]
    show 0 < _ + 2
    omega
  · push Not at hfree
    obtain ⟨w, hhand⟩ := hfree
    have houtside := h.inHand hhand
    omega

/-! ### What a step does to the locals -/

theorem last_moved (h : Accounts s o) {w : Nat} {y : Worker K} (hw : (s.workers w).pc ≠ .exited)
    (hworkers : t.workers = Function.update s.workers w y) (hn : t.nworkers = s.nworkers) :
    s.last = s.workers w ∧ t.last = y := by
  have hlast := h.single.eq_last h.wf hw
  have hpred : t.nworkers - 1 = w := by omega
  refine ⟨h.single.last_eq h.wf hw, ?_⟩
  rw [State.last, hpred, hworkers, Function.update_self]

/-- The worker moves, and no fiber. -/
theorem tally_quiet (h : Accounts s o) {w : Nat} {y : Worker K} (hw : (s.workers w).pc ≠ .exited)
    (hworkers : t.workers = Function.update s.workers w y) (hn : t.nworkers = s.nworkers)
    (hheap : t.heap = s.heap) (hnfib : t.nfib = s.nfib)
    (hcurs : ∀ f x, y.pc.curs f x = (s.workers w).pc.curs f x) : Tally t o.curs := by
  obtain ⟨hlast, hlast'⟩ := h.last_moved hw hworkers hn
  refine h.tally.congr hheap hnfib fun f x => ?_
  rw [hlast, hlast']
  exact hcurs f x

/-- The worker moves with fiber `f`, which it has in hand before, after or both. -/
theorem tally_fiber (h : Accounts s o) {w f : Nat} {x : Fiber K} {y : Worker K} {v : Curs}
    (hw : (s.workers w).pc ≠ .exited) (hworkers : t.workers = Function.update s.workers w y)
    (hn : t.nworkers = s.nworkers) (hf : f < s.nfib)
    (hbefore : (s.workers w).pc.hand = none ∨ (s.workers w).pc.hand = some f)
    (hafter : y.pc.hand = none ∨ y.pc.hand = some f)
    (hheap : t.heap = Function.update s.heap f x) (hnfib : t.nfib = s.nfib)
    (hv : v = y.pc.curs f x) : Tally t (Function.update o.curs f v) := by
  obtain ⟨hlast, hlast'⟩ := h.last_moved hw hworkers hn
  have other :
      ∀ {pc : PC K}, pc.hand = none ∨ pc.hand = some f → ∀ g, g ≠ f →
        pc.hand ≠ some g := by
    intro pc hpc g hg hhand
    rcases hpc with hpc | hpc <;> rw [hpc] at hhand
    · cases hhand
    · exact hg (Option.some.inj hhand).symm
  refine h.tally.update hf ?_ ?_ hheap hnfib ?_
  · rw [hlast]
    exact other hbefore
  · rw [hlast']
    exact other hafter
  · rw [hlast']
    exact hv

theorem curs_inHand (h : Accounts s o) {w : Nat} {b : Branch} {f : Nat} {ph : Phase K}
    (hpc : (s.workers w).pc = .on b f ph) : o.curs f = ph.curs (s.heap f) := by
  have hhand : (s.workers w).pc.hand = some f := by rw [hpc]; rfl
  rw [h.tally.made f (h.wf.hand_lt hhand), h.single.last_eq h.wf (PC.ne_exited_of_hand hhand), hpc,
    PC.curs_on]

/-- The worker goes on with its fiber, or lets go of it. -/
theorem tally_on (h : Accounts s o) {w : Nat} {b : Branch} {f : Nat} {ph : Phase K} {x : Fiber K}
    {y : Worker K} (hpc : (s.workers w).pc = .on b f ph)
    (hworkers : t.workers = Function.update s.workers w y) (hn : t.nworkers = s.nworkers)
    (hafter : y.pc.hand = none ∨ y.pc.hand = some f) (hheap : t.heap = Function.update s.heap f x)
    (hnfib : t.nfib = s.nfib) (hv : (ph.curs (s.heap f)).work (s.heap f) ph = y.pc.curs f x) :
    Tally t (s.cursAfter o.curs (.work w)) := by
  have hhand : (s.workers w).pc.hand = some f := by rw [hpc]; rfl
  have hcurs : s.cursAfter o.curs (.work w)
      = Function.update o.curs f ((o.curs f).work (s.heap f) ph) := by
    simp only [State.cursAfter, hpc]
  rw [hcurs]
  refine h.tally_fiber (PC.ne_exited_of_hand hhand) hworkers hn (h.wf.hand_lt hhand)
    (.inr hhand) hafter
    hheap hnfib ?_
  rw [h.curs_inHand hpc, hv]

/-- The code in the fiber acts. -/
theorem tally_act (h : Accounts s o) {w : Nat} {b : Branch} {f : Nat} {c : Code K} {a : Act K}
    {ph : Phase K} {x : Fiber K} (hpc : (s.workers w).pc = .on b f (.inside (.body c)))
    (hworkers : t.workers = Function.update s.workers w { s.workers w with pc := .on b f ph })
    (hn : t.nworkers = s.nworkers) (hheap : t.heap = Function.update s.heap f x)
    (hnfib : t.nfib = s.nfib) (hv : (Phase.curs (s.heap f) (.inside (.body c))).act a = ph.curs x) :
    Tally t (s.cursAfter o.curs (.act w a)) := by
  have hhand : (s.workers w).pc.hand = some f := by rw [hpc]; rfl
  have hcurs : s.cursAfter o.curs (.act w a) = Function.update o.curs f ((o.curs f).act a) := by
    simp only [State.cursAfter, hpc]
  rw [hcurs]
  refine h.tally_fiber (PC.ne_exited_of_hand hhand) hworkers hn (h.wf.hand_lt hhand) (.inr hhand)
    (.inr rfl) hheap hnfib ?_
  rw [h.curs_inHand hpc, hv, PC.curs_on]

/-- `start` and `stop`: a worker is added only when all others have left. -/
theorem tally_owner (h : Accounts s o) (hf : OwnerFrame s t) (hsingle : Single t) :
    Tally t o.curs := by
  refine h.tally.congr hf.heap hf.nfib fun f x => ?_
  by_cases hn : t.nworkers = s.nworkers
  · have hlast : t.last = s.last := by
      unfold State.last
      rw [hn]
      by_cases hpos : 0 < s.nworkers
      · exact hf.old _ (.inl (by omega))
      · exact hf.old _ (.inr (by omega))
    rw [hlast]
  · have hgrow := hf.grow
    obtain ⟨tid, hnew⟩ := hf.fresh (t.nworkers - 1) (by omega) (by omega)
    -- neither the worker that left nor the new one has a fiber in hand
    have hexit : s.last.pc = .exited := by
      by_cases hpos : 0 < s.nworkers
      · have hother := hsingle.others (s.nworkers - 1) (by omega)
        rwa [hf.old _ (.inl (by omega))] at hother
      · rw [State.last, h.wf.absent _ (by omega)]
        rfl
    have hlast : t.last.pc = .prelude := by
      rw [State.last, hnew]
      rfl
    rw [hlast, hexit]
    rfl

/-- A fiber that is given to a new callback has nothing on its stack. -/
theorem curs_resettable (h : Accounts s o) {f : Nat} (hf : f < s.nfib)
    (hx : (s.heap f).state.resettable = true) : o.curs f = .zero := by
  obtain ⟨hexec, hcurs⟩ := FiberState.curs_resettable hx
  rw [h.curs_eq hf hexec, hcurs]

/-- The worker moves, and a fiber is created. -/
theorem tally_alloc (h : Accounts s o) {w : Nat} {y : Worker K} {cb : Code K} {idle : Bool}
    (hw : (s.workers w).pc ≠ .exited) (hworkers : t.workers = Function.update s.workers w y)
    (hn : t.nworkers = s.nworkers) (hheap : t.heap = (s.alloc (.new cb idle)).heap)
    (hnfib : t.nfib = s.nfib + 1) (hcurs : ∀ f x, y.pc.curs f x = (s.workers w).pc.curs f x) :
    Tally t o.curs := by
  obtain ⟨hlast, hlast'⟩ := h.last_moved hw hworkers hn
  have halloc := h.tally.alloc (fun f hf => h.wf.hand_lt hf) cb idle
  refine halloc.congr hheap hnfib fun f x => ?_
  show _ = s.last.pc.curs f x
  rw [hlast, hlast']
  exact hcurs f x

theorem tally_move (h : Accounts s o) {l : Label K} (hm : Move P s l t) (hsingle : Single t) :
    Tally t (s.cursAfter o.curs l) := by
  have same : ∀ f, s.heap = Function.update s.heap f (s.heap f) := fun f =>
    (Function.update_eq_self f s.heap).symm
  cases hm with
  | fails hf =>
    have hcurs : s.cursAfter o.curs l = o.curs := by
      cases hf with
      | swapInExec hpc _ => simp [State.cursAfter, hpc, Curs.work]
      | @yieldNotExec w b f c a hpc ha hx => exact absurd (h.owned.on w b f _ trivial hpc).1.2 hx
      | reset hpc _ _ => simp only [State.cursAfter, hpc]
      | recycle hpc _ => simp [State.cursAfter, hpc, Curs.work]
      | neverReach hpc => simp [State.cursAfter, hpc, Curs.work]
    rw [hcurs]
    exact h.tally.congr rfl rfl fun _ _ => rfl
  | owner hl hf =>
    have hcurs : s.cursAfter o.curs l = o.curs := by
      rcases hl with ⟨tids, rfl⟩ | rfl | rfl <;> rfl
    rw [hcurs]
    exact h.tally_owner hf hsingle
  | extSchedule _ => exact h.tally.congr rfl rfl fun _ _ => rfl
  | extNew => exact h.tally.alloc (fun f hf => h.wf.hand_lt hf) _ _
  | prelude hpc =>
    rw [State.cursAfter, hpc]
    exact h.tally_alloc (by simp [hpc]) rfl rfl rfl rfl fun f x => by rw [hpc]; rfl
  | scanNone hpc _ | scanSome hpc _ | checkNone hpc | checkDone hpc _ | checkCb hpc
  | idleExit hpc _ _ =>
    rw [State.cursAfter, hpc]
    exact h.tally_quiet (by simp [hpc]) rfl rfl rfl rfl fun f x => by rw [hpc]; rfl
  | checkFiber hpc _ | idleEnter hpc _ _ =>
    rw [State.cursAfter, hpc]
    refine h.tally_quiet (by simp [hpc]) rfl rfl rfl rfl fun f x => ?_
    rw [hpc]
    exact PC.curs_before _ _
  | prepareOld hpc hg hx =>
    -- `makecontext` discards the stack of `cb_fiber`; there is nothing left on it
    obtain ⟨hlt, -⟩ := (h.wf.worker _).cb _ hg
    rw [State.cursAfter, hpc, ← Function.update_eq_self _ o.curs, h.curs_resettable hlt hx]
    refine h.tally_fiber (by simp [hpc]) rfl rfl hlt (.inl (by rw [hpc]; rfl)) (.inr rfl) rfl rfl ?_
    rw [PC.curs_before]
    rfl
  | prepareNew hpc hg =>
    rw [State.cursAfter, hpc]
    refine h.tally_alloc (by simp [hpc]) rfl rfl rfl rfl fun f x => ?_
    rw [hpc]
    exact PC.curs_before _ _
  | fiber hpc hx => exact h.tally_on hpc rfl rfl (.inr rfl) rfl rfl (by rw [hx.curs, PC.curs_on])
  | decrement hpc hb =>
    exact h.tally_on hpc rfl rfl (.inr rfl) (same _) rfl (by rw [PC.curs_on]; rfl)
  | requeue hpc => exact h.tally_on hpc rfl rfl (.inl rfl) (same _) rfl rfl
  | leave hpc hb hx => exact h.tally_on hpc rfl rfl (.inl rfl) (same _) rfl rfl
  | setHold hpc => exact h.tally_on hpc rfl rfl (.inl rfl) rfl rfl rfl
  | @recycle w b f hpc hx =>
    -- nor is there when the callback has come to its end
    have hlt : f < s.nfib := (h.wf.on_lt hpc).1
    refine h.tally_on hpc rfl rfl (.inl rfl) rfl rfl ?_
    show Phase.curs (s.heap f) .recycle = _
    rw [← h.curs_inHand hpc, h.curs_resettable hlt hx]
    rfl
  | code hpc hc hx _ => exact h.tally_act hpc rfl rfl rfl rfl hx.curs
  | codeSchedule hpc hc hfc => exact h.tally_act hpc rfl rfl (same _) rfl rfl
  | @codeNew w b f c c' k hpc hc =>
    have hcurs : s.cursAfter o.curs (.act w (.newFiber k s.nfib)) = o.curs := by
      simp [State.cursAfter, hpc, Curs.act]
    rw [hcurs]
    exact h.tally_alloc (by simp [hpc]) rfl rfl rfl rfl fun f x => by rw [hpc]; rfl

/-- A step of a worker, as far as `ft` goes. -/
theorem ft_move (h : Accounts s o) {l : Label K} (hm : Move P s l t) (w f : Nat)
    (hf : (t.workers w).pc.ft = some f) : (o.next s l).ft w = some f := by
  -- what another worker has is as before
  have other :
      ∀ {v : Nat} {y : Worker K}, t.workers = Function.update s.workers v y → w ≠ v →
      o.ft w = some f := by
    intro v y hworkers hwv
    rw [hworkers, Function.update_of_ne hwv] at hf
    exact h.ft w f hf
  -- a worker's own step
  have work :
      ∀ {v : Nat} {y : Worker K}, l = .work v → t.workers = Function.update s.workers v y →
      (y.pc.ft = some f → s.ftAfter v (o.ft v) = some f) → (o.next s l).ft w = some f := by
    intro v y hl hworkers hy
    rw [hl]
    show Function.update o.ft v (s.ftAfter v (o.ft v)) w = some f
    by_cases hwv : w = v
    · rw [hwv, Function.update_self]
      rw [hwv, hworkers, Function.update_self] at hf
      exact hy hf
    · rw [Function.update_of_ne hwv]
      exact other hworkers hwv
  -- the code in its fiber acts
  have act :
      ∀ {v b g c ph} {a : Act K}, (s.workers v).pc = .on b g (.inside (.body c)) →
        l = .act v a →
      t.workers = Function.update s.workers v { s.workers v with pc := .on b g ph } →
      (o.next s l).ft w = some f := by
    intro v b g c ph a hpc hl hworkers
    rw [hl]
    show o.ft w = some f
    by_cases hwv : w = v
    · rw [hwv, hworkers, Function.update_self] at hf
      rw [hwv]
      refine h.ft v f ?_
      rw [hpc, PC.ft_on]
      exact hf
    · exact other hworkers hwv
  cases hm with
  | @fails _ e hfails =>
    -- the worker stays where it is
    cases l with
    | work v =>
      refine work rfl (Function.update_eq_self v s.workers).symm fun hft => ?_
      rw [ftAfter_fails hfails hft]
      exact h.ft v f hft
    | act v a => exact h.ft w f hf
    | _ => cases hfails
  | owner hl hown =>
    have hft : (o.next s l).ft = o.ft := by
      rcases hl with ⟨tids, rfl⟩ | rfl | rfl <;> rfl
    rw [hft]
    rcases hown.worker w with hsame | ⟨-, tid, hnew⟩
    · rw [hsame] at hf
      exact h.ft w f hf
    · rw [hnew] at hf
      cases hf
  | extSchedule _ => exact h.ft w f hf
  | extNew => exact h.ft w f hf
  | @scanSome v e q hpc hq =>
    -- the scan fills `ft`
    refine work rfl rfl fun hft => ?_
    rw [ftAfter_scan hpc hq]
    obtain ⟨task, thread⟩ := e
    cases task with
    | fiber g => exact hft
    | cb k => cases hft
  | @checkFiber v g hpc _ =>
    refine work rfl rfl fun hft => ?_
    rw [State.ftAfter, hpc]
    refine h.ft v f ?_
    rw [hpc]
    exact hft
  | @fiber v b g ph x ph' hpc hx =>
    refine work rfl rfl fun hft => ?_
    rw [ftAfter_fiber hpc hx]
    refine h.ft v f ?_
    rw [hpc, PC.ft_on]
    exact hft
  | @decrement v b g hpc hb =>
    refine work rfl rfl fun hft => ?_
    have hkeep : s.ftAfter v (o.ft v) = o.ft v := by
      rw [State.ftAfter, hpc]
      cases b <;> rfl
    rw [hkeep]
    refine h.ft v f ?_
    rw [hpc, PC.ft_on]
    exact hft
  | prelude hpc | scanNone hpc _ | checkNone hpc | checkDone hpc _ | checkCb hpc
  | prepareOld hpc _ _
  | prepareNew hpc _ | idleExit hpc _ _ | idleEnter hpc _ _ | requeue hpc
  | leave hpc _ _ | setHold hpc
  | recycle hpc _ => exact work rfl rfl nofun
  | code hpc _ _ _ => exact act hpc rfl rfl
  | codeSchedule hpc _ _ => exact act hpc rfl rfl
  | codeNew hpc _ => exact act hpc rfl rfl

/-! ### What is destroyed stays so -/

theorem count_zero {f : Nat} : o.count s f = 0 ↔ f ∉ queuedFibers s.fibers ∧
    (∀ w, w < s.nworkers → ¬ o.Local s f w) ∧ o.copies f = 0 ∧ o.curs f = .zero := by
  have hcurs : (o.curs f).main + (o.curs f).yield = 0 ↔ o.curs f = .zero := by
    obtain ⟨main, yield⟩ := o.curs f
    simp [Curs.zero]
  have houtside : 0 < o.outside s f ↔ _ := Owners.outside_pos
  unfold Owners.count
  rw [Nat.add_eq_zero_iff, hcurs, ← Nat.le_zero, ← Nat.not_lt, houtside]
  simp only [not_or, not_exists, not_and, Nat.not_lt, Nat.le_zero, and_assoc]

theorem next_ft {l : Label K} {w f : Nat} (hf : (o.next s l).ft w = some f) :
    o.ft w = some f ∨ f ∈ queuedFibers s.fibers := by
  cases l with
  | work v =>
    have hf : Function.update o.ft v (s.ftAfter v (o.ft v)) w = some f := hf
    by_cases hwv : w = v
    · rw [hwv, Function.update_self] at hf
      rw [hwv]
      exact ftAfter_some hf
    · rw [Function.update_of_ne hwv] at hf
      exact .inl hf
  | _ => exact .inl hf

/-- User code gets pointers to new fibers only. -/
theorem next_copies {l : Label K} (hm : Move P s l t) {f : Nat} (hf : f < s.nfib) :
    (o.next s l).copies f = o.copies f := by
  have hne : f ≠ s.nfib := Nat.ne_of_lt hf
  cases hm with
  | fails hfails => cases hfails with
    | yieldNotExec _ ha _ => rcases ha with rfl | rfl <;> rfl
    | _ => rfl
  | owner hl _ => rcases hl with ⟨tids, rfl⟩ | rfl | rfl <;> rfl
  | extNew => exact Function.update_of_ne hne _ _
  | codeNew _ _ => exact Function.update_of_ne hne _ _
  | code _ _ hx _ => cases hx <;> rfl
  | _ => rfl

/-- A local of a worker is one that it had, or comes out of the queue. -/
theorem local_step (h : Accounts s o) {l : Label K} (hstep : step P s l = some t) {f w : Nat}
    (hf : f < s.nfib) (hlocal : (o.next s l).Local t f w) :
    w < s.nworkers ∧ o.Local s f w ∨ f ∈ queuedFibers s.fibers := by
  obtain ⟨hlive, hown⟩ := hlocal
  have hkeep := (step_move hstep).2.keeps_own w hf
  by_cases hqueue : f ∈ queuedFibers s.fibers
  · exact .inr hqueue
  · have hold :
        o.ft w = some f ∨ (s.workers w).cbFiber = some f ∨
          (s.workers w).idleFiber = some f := by
      rcases hown with hft | hcb | hidle
      · exact .inl ((next_ft hft).resolve_right hqueue)
      · exact .inr (.inl (hkeep.1 hcb))
      · exact .inr (.inr (hkeep.2 hidle))
    -- a worker that is new has no fibers
    have hlt : w < s.nworkers := by
      by_contra hge
      have hle : s.nworkers ≤ w := by omega
      rw [h.absent w hle, h.wf.absent w hle] at hold
      rcases hold with hold | hold | hold <;> cases hold
    exact .inl ⟨hlt, fun hexit => hlive (exited_persist hstep hlt hexit), hold⟩

/-- A step gives no owner to a fiber that has none. -/
theorem gone_step (h : Accounts s o) {l : Label K} (hsched : ∀ f ∈ l.scheduled, 0 < o.copies f)
    (hstep : step P s l = some t) {f : Nat} (hf : f < s.nfib) (hzero : o.count s f = 0) :
    (o.next s l).count t f = 0 := by
  have hm := (step_move hstep).2
  have hfree : ∀ w, (s.workers w).pc.hand ≠ some f := by
    intro w hhand
    have hpos := h.inHand hhand
    unfold Owners.count at hzero
    omega
  obtain ⟨hqueue, hlocal, hcopies, hcurs⟩ := count_zero.mp hzero
  -- one kind of owner after the other: queue, locals of `run`, user code, the fiber's own stack
  refine count_zero.mpr ⟨fun hmem => ?_, fun w hw => ?_, ?_, ?_⟩
  · rcases hm.mem_queued hmem with hold | hnew | ⟨w, hhand⟩
    · exact hqueue hold
    · have hpos := hsched f hnew
      omega
    · exact hfree w hhand
  · intro hnew
    rcases h.local_step hstep hf hnew with ⟨hlt, hold⟩ | hold
    · exact hlocal w hlt hold
    · exact hqueue hold
  · rw [next_copies hm hf, hcopies]
  · show s.cursAfter o.curs l f = .zero
    rw [cursAfter_of_free l hfree, hcurs]

theorem step (h : Accounts s o) {l : Label K} (hstep : Scheduler.step P s l = some t) :
    Accounts t (o.next s l) := by
  have hm := (step_move hstep).2
  have hsingle := h.single.step h.wf hstep
  refine ⟨h.wf.move hm, hsingle, ?_, h.tally_move hm hsingle, fun w f => h.ft_move hm w f,
    fun w hw => ?_⟩
  · exact Owned.move h.owned (local_restsAt P) h.wf (fun _ => h.single.takesFree h.wf l)
      (fun _ => takesRipe_true s l) (keeps_true s l) hm
  · -- only a worker that there is fills its `ft`
    have hle : s.nworkers ≤ w := Nat.le_trans hm.nworkers_le hw
    have hold := h.absent w hle
    cases l with
    | work v =>
      have hlive := step_not_exited hstep (.inl rfl)
      have hlt := h.wf.lt_nworkers hlive
      show Function.update o.ft v (s.ftAfter v (o.ft v)) w = none
      rw [Function.update_of_ne (by omega)]
      exact hold
    | _ => exact hold

/-- User code has one pointer more or less. -/
theorem copies (h : Accounts s o) {o' : Owners} (hft : o'.ft = o.ft) (hcurs : o'.curs = o.curs) :
    Accounts s o' := by
  refine ⟨h.wf, h.single, h.owned, ?_, ?_, ?_⟩
  · rw [hcurs]
    exact h.tally
  · rw [hft]
    exact h.ft
  · rw [hft]
    exact h.absent

end Accounts

/-! ### Destroyed fibers -/

/-- Destroyed is what has no owner, and nothing that has started and not finished. -/
structure Balanced (s : State K) (o : Owners) : Prop where
  accounts : Accounts s o
  destroyed : ∀ f, o.destroyed f = true ↔ f < s.nfib ∧ o.count s f = 0
  failed : o.failed = false

section balanced
variable {s t : State K} {o : Owners}

theorem Accounts.settle (h : Accounts s o)
    (hgone : ∀ f, o.destroyed f = true → f < s.nfib ∧ o.count s f = 0)
    (hfailed : o.failed = false) :
    Balanced s (o.settle s) where
  accounts := h.copies rfl rfl
  destroyed f := by
    have hdestroyed :
        (o.settle s).destroyed f = (o.destroyed f || decide (f < s.nfib ∧ o.count s f = 0)) := rfl
    show _ ↔ f < s.nfib ∧ o.count s f = 0
    rw [hdestroyed, Bool.or_eq_true, decide_eq_true_iff]
    exact ⟨fun hf => hf.elim (hgone f) id, .inr⟩
  failed := by
    show (o.failed || _) = false
    rw [hfailed, Bool.false_or, List.any_eq_false]
    intro f hf hbad
    simp only [Bool.and_eq_true, Bool.not_eq_true', decide_eq_true_iff] at hbad
    obtain ⟨⟨-, hzero⟩, hstate⟩ := hbad
    -- a fiber that may not be destroyed has an owner
    have hunderway : (s.heap f).state.underway = true := by
      rw [FiberState.resettable_eq] at hstate
      simpa using hstate
    have hpos := h.count_pos (List.mem_range.mp hf) hunderway
    omega

theorem Balanced.step (h : Balanced s o) {l : Label K}
    (hsched : ∀ f ∈ l.scheduled, 0 < o.copies f)
    (hstep : Scheduler.step P s l = some t) : Balanced t ((o.next s l).settle t) := by
  refine (h.accounts.step hstep).settle (fun f hf => ?_) h.failed
  obtain ⟨hlt, hzero⟩ := (h.destroyed f).mp hf
  exact ⟨Nat.lt_of_lt_of_le hlt (step_move hstep).2.extends.1,
    h.accounts.gone_step hsched hstep hlt hzero⟩

/-- A copy of a pointer is made by those who have one, or by the fiber itself. -/
theorem Balanced.gain (h : Balanced s o) {f : Nat} (hf : 0 < o.count s f) :
    Balanced s (o.gain f) := by
  refine ⟨h.accounts.copies rfl rfl, fun g => ?_, h.failed⟩
  show o.destroyed g = true ↔ _
  rw [h.destroyed g]
  by_cases hgf : g = f
  · have hcount : (o.gain f).count s f = o.count s f + 1 := by
      show _ + Function.update o.copies f (o.copies f + 1) f + _ = _ + o.copies f + _ + 1
      rw [Function.update_self]
      exact Nat.add_right_comm _ 1 _
    rw [hgf, hcount]
    omega
  · have hcount : (o.gain f).count s g = o.count s g := by
      show _ + Function.update o.copies f (o.copies f + 1) g + _ = _ + o.copies g + _
      rw [Function.update_of_ne hgf]
      rfl
    rw [hcount]

theorem Balanced.lose (h : Balanced s o) (f : Nat) : Balanced s ((o.lose f).settle s) := by
  have haccounts : Accounts s (o.lose f) := h.accounts.copies rfl rfl
  refine haccounts.settle (fun g hg => ?_) h.failed
  obtain ⟨hlt, hzero⟩ := (h.destroyed g).mp hg
  refine ⟨hlt, ?_⟩
  have hle : (o.lose f).copies g ≤ o.copies g := by
    show Function.update o.copies f (o.copies f - 1) g ≤ _
    by_cases hgf : g = f
    · rw [hgf, Function.update_self]
      omega
    · rw [Function.update_of_ne hgf]
  have hcount : (o.lose f).count s g ≤ o.count s g := by
    show _ + (o.lose f).copies g + _ ≤ _ + o.copies g + _
    exact Nat.add_le_add_right (Nat.add_le_add_left hle _) _
  omega

theorem balanced_initial (useCaller : Bool) (tid : Int) :
    Balanced (.initial 1 useCaller tid : State K) .initial where
  accounts := {
    wf := wellFormed_initial 1 useCaller tid
    single := single_initial useCaller tid
    owned := Owned.initial 1 useCaller tid
    tally := ⟨fun f hf => absurd hf (Nat.not_lt_zero f), fun _ _ => rfl⟩
    ft := fun w f h => by cases h
    absent := fun _ _ => rfl }
  destroyed f := by
    constructor
    · intro h
      cases h
    · intro h
      exact absurd h.1 (Nat.not_lt_zero f)
  failed := rfl

theorem balanced_reachable {useCaller : Bool} {tid : Int} :
    ∀ p, (counted P 1 useCaller tid).Reachable p → Balanced p.1 p.2 := by
  refine System.invariant (balanced_initial useCaller tid) ?_
  intro ⟨s, o⟩ l p' h hstep
  cases l with
  | run l =>
    have hstep : (if ∀ f ∈ l.scheduled, 0 < o.copies f then
        (step P s l).map fun s' => (s', (o.next s l).settle s') else none) = some p' := hstep
    split at hstep
    · next hsched =>
      obtain ⟨s', hs', rfl⟩ := Option.map_eq_some_iff.mp hstep
      exact h.step hsched hs'
    · cases hstep
  | getThis w =>
    have hstep : (s.current w).map (fun f => (s, o.gain f)) = some p' := hstep
    obtain ⟨f, hf, rfl⟩ := Option.map_eq_some_iff.mp hstep
    obtain ⟨⟨b, c, hpc⟩, -⟩ := current_eq_some hf
    have hpos : 0 < o.outside s f := h.accounts.inHand (by rw [hpc]; rfl)
    exact h.gain (Nat.lt_of_lt_of_le hpos (Nat.le_add_right _ _))
  | copy f =>
    have hstep : (if 0 < o.copies f then some (s, o.gain f) else none) = some p' := hstep
    split at hstep <;> cases hstep
    next hf =>
    have hpos : 0 < o.outside s f := Owners.outside_pos.mpr (.inr (.inr hf))
    exact h.gain (Nat.lt_of_lt_of_le hpos (Nat.le_add_right _ _))
  | drop f =>
    have hstep : (if 0 < o.copies f then some (s, (o.lose f).settle s) else none) = some p' := hstep
    split at hstep <;> cases hstep
    exact h.lose f

/-- For any tasks, and with anybody else making, copying, scheduling and dropping fibers:
    with one worker no fiber is destroyed between its start and its end. -/
theorem survives {useCaller : Bool} {tid : Int} {p : State K × Owners}
    (h : (counted P 1 useCaller tid).Reachable p) : Survives p := by
  have hbal := balanced_reachable p h
  have haccounts := hbal.accounts
  have hcount : ∀ f, f < p.1.nfib → (p.1.heap f).state.underway = false →
      p.2.curs f = .zero := by
    intro f hf hx
    refine haccounts.curs_resettable hf ?_
    rw [FiberState.resettable_eq, hx]
    rfl
  refine ⟨fun f hf hx => ?_, fun f hf hx => ?_, fun w f hhand => haccounts.inHand hhand,
    fun f hf hx => ⟨hcount f hf hx, ?_⟩, fun f hf =>
      ((hbal.destroyed f).mp hf).2, hbal.failed⟩
  · have hpos := haccounts.count_pos hf hx
    refine ⟨hpos, ?_⟩
    by_contra hgone
    have hzero := ((hbal.destroyed f).mp (by simpa using hgone)).2
    omega
  · have hexec : (p.1.heap f).state ≠ .exec := by
      rcases hx with hx | hx <;> rw [hx] <;> exact nofun
    rw [haccounts.curs_eq hf hexec]
    rcases hx with hx | hx <;> rw [hx] <;> rfl
  · have hzero : p.2.count p.1 f = p.2.outside p.1 f := by
      unfold Owners.count
      rw [hcount f hf hx]
      rfl
    rw [hbal.destroyed f, hzero]
    exact ⟨fun h => h.2, fun h => ⟨hf, h⟩⟩

end balanced

/-- A fiber that runs to its end with nobody else having a pointer, and then a callback
    that yields `HOLD`, for which `run` does `cb_fiber.reset()`. -/
def heldCallback : List (OwnerLabel Script) :=
  [.run (.start [7]), .run (.ext (.newFiber .ret 0)),
    .run (.ext (.schedule (some (.fiber 0)) (-1))),
    .drop 0, .run (.ext (.schedule (some (.cb (.yieldToHold .ret))) (-1)))] ++
  List.replicate 7 (.run (.work 0)) ++ [.run (.act 0 .ret)] ++ List.replicate 11 (.run (.work 0)) ++
  [.run (.act 0 .yieldToHold)] ++ List.replicate 6 (.run (.work 0))

theorem survives_heldCallback :
    ∃ p, (counted scripted 1 false 0).exec
      (.initial 1 false 0, .initial) heldCallback = some p ∧
      p.2.destroyed 0 = true ∧ (p.1.heap 2).state = .hold ∧ p.2.outside p.1 2 = 0 ∧
        Survives p := by
  have hrun :
      ((counted scripted 1 false 0).exec (.initial 1 false 0, .initial) heldCallback).isSome := by
    decide
  refine ⟨_, (Option.some_get hrun).symm, rfl, rfl, rfl, ?_⟩
  exact survives (System.reachable_get heldCallback hrun)

end Gwn.Scheduler
