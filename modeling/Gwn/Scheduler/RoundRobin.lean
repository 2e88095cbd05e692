import Gwn.Scheduler.ActiveCount
import Gwn.Scheduler.Fifo
import Gwn.Scheduler.Solo

/-! # One worker is a FIFO round-robin machine

    The state of a scheduler with one worker, seen as a state of the machine of
    `Fifo.lean`: the entry that the worker has popped and not begun yet still is the head
    of the queue, and a fiber goes on where its context is or will be restored. The idle
    fiber, `cb_fiber` and its recycling, the scan over the list and the bookkeeping behind
    a segment are not seen. -/

namespace Gwn.Scheduler

open LTS

variable {K : Type} {P : Prog K}

/-! ### The mapping -/

/-- Where the context of fiber `f` is, or goes on. -/
def PC.point (f : Nat) (x : Fiber K) : PC K → Point K
  | .on _ g ph => if g = f then ph.point x else x.ctx
  | _ => x.ctx

/-- Whose turn a phase of the loop is: a segment lasts from the assertion before `swapIn`
    to the yield, and a fiber that has yielded `READY` is due in the queue until it is put
    back. Behind `switchOut` only the state tells the two ways to yield apart. -/
def Phase.turn (f : Nat) (x : Fiber K) : Phase K → Turn
  | .assertNotExec | .setExec | .switchIn | .inside _ => .running f
  | .yielding .ready _ => .ready f
  | .switchOut _ | .returned | .testReady | .requeue =>
    if x.state = .ready then .ready f else .none
  | _ => .none

/-- The same for the worker, for whom the idle fiber never has a turn. -/
def PC.turn (heap : Nat → Fiber K) : PC K → Turn
  | .on .idle _ _ => .none
  | .on _ f ph => ph.turn f (heap f)
  | _ => .none

/-- Taken from the queue, and not begun yet. -/
def PC.popped : PC K → List (Task K)
  | .check (some t) => [t]
  | .prepare k => [.cb k]
  | _ => []

namespace State

/-- Where fiber `f` goes on, if it is a task that can. -/
def code (s : State K) (f : Nat) : Option (Code K) :=
  if f < s.nfib ∧ (s.heap f).idle = false then
    (s.heap f).codeAt (s.last.pc.point f (s.heap f))
  else none

/-- What is seen of the scheduler. The popped task stays in front: the machine takes it
    from the queue only when it begins. -/
def fifo (s : State K) : Fifo K :=
  { queue := s.last.pc.popped ++ s.fibers.map (·.task)
    code := s.code
    turn := s.last.pc.turn s.heap }

/-- What the machine does in a step of the scheduler, if anything. -/
def observe (s : State K) : Label K → Option (FifoLabel K)
  | .ext a => some (.outside a)
  | .act w a =>
    match (s.workers w).pc with
    | .on .idle _ _ => none
    | _ => some (.act a)
  | .work w =>
    match (s.workers w).pc with
    | .check (some (.fiber f)) => some (.begin f)
    | .prepare _ => some (.begin ((s.workers w).cbFiber.getD s.nfib))
    | .on _ _ .requeue => some .requeue
    | _ => none
  | _ => none

end State

/-! ### Frame lemmas -/

/-- The context counts for every fiber but the one in hand. -/
theorem PC.point_of_ne {pc : PC K} {f : Nat} (h : pc.hand ≠ some f) (x : Fiber K) :
    pc.point f x = x.ctx := by
  cases pc with
  | on b g ph =>
    have hne : g ≠ f := fun heq => h (congrArg some heq)
    simp [point, hne]
  | _ => rfl

theorem PC.point_on {b : Branch} {f : Nat} {ph : Phase K} (x : Fiber K) :
    (PC.on b f ph).point f x = ph.point x := by
  simp [point]

/-- In the branches of tasks and callbacks the phase decides. -/
theorem PC.turn_on {b : Branch} {f : Nat} {ph : Phase K} {heap : Nat → Fiber K}
    (hb : b ≠ .idle) :
    (PC.on b f ph).turn heap = ph.turn f (heap f) := by
  cases b with
  | idle => exact absurd rfl hb
  | _ => rfl

/-- A phase gives the turn to its own fiber or to nobody. -/
theorem Phase.turn_cases (f : Nat) (x : Fiber K) (ph : Phase K) :
    ph.turn f x = .running f ∨ ph.turn f x = .ready f ∨ ph.turn f x = .none := by
  cases ph with
  | yielding st c => cases st <;> simp [turn]
  | switchOut _ | returned | testReady | requeue =>
    by_cases hx : x.state = .ready
    · simp [turn, hx]
    · simp [turn, hx]
  | _ => simp [turn]

/-- Whoever has the turn is in hand. -/
theorem PC.hand_of_turn {pc : PC K} {f : Nat} {heap : Nat → Fiber K}
    (h : pc.turn heap = .running f ∨ pc.turn heap = .ready f) : pc.hand = some f := by
  cases pc with
  | on b g ph =>
    cases b with
    | idle => rcases h with h | h <;> cases h
    | _ =>
      have h : ph.turn g (heap g) = .running f ∨ ph.turn g (heap g) = .ready f := h
      rcases Phase.turn_cases g (heap g) ph with hturn | hturn | hturn <;> rw [hturn] at h
      · rcases h with h | h <;> cases h
        rfl
      · rcases h with h | h <;> cases h
        rfl
      · rcases h with h | h <;> cases h
  | _ => rcases h with h | h <;> cases h

/-- A fiber in hand that is neither executed nor at its end has left its segment. -/
theorem Placed.waiting {b : Branch} {f : Nat} {ph : Phase K} {x : Fiber K}
    (hcons : Consistent (.on b ph) x) (hplaced : Placed (.on b ph) x) (hexec : x.state ≠ .exec)
    (hready : x.state ≠ .ready) (hfin : x.state.finished = false)
    (htaken : (PC.on b f ph).taken ≠ some f) :
    (x.codeAt (ph.point x)).isSome ∧ ph.turn f x ≠ .running f ∧ ph.turn f x ≠ .ready f := by
  have left : ∀ {p : Point K}, x.LeftAt p → (x.codeAt p).isSome := by
    intro p hp
    obtain ⟨c, rfl⟩ := hp.body hfin
    rfl
  -- before the yield the task is taken or executed, behind it the context is saved
  cases ph with
  | assertNotExec => exact absurd rfl htaken
  | setExec => exact absurd rfl htaken
  | switchIn => exact absurd hcons.2 hexec
  | inside p => exact absurd hcons.2 hexec
  | yielding st c => exact absurd hcons.2.1 hexec
  | switchOut p =>
    exact ⟨left hplaced.2, by simp [Phase.turn, hready], by simp [Phase.turn, hready]⟩
  | returned =>
    exact ⟨left hplaced.2, by simp [Phase.turn, hready], by simp [Phase.turn, hready]⟩
  | testReady =>
    exact ⟨left hplaced.2, by simp [Phase.turn, hready], by simp [Phase.turn, hready]⟩
  | requeue => exact absurd hcons.2 hready
  | testDone => exact ⟨left hplaced.2, nofun, nofun⟩
  | setHold =>
    obtain ⟨c, hc⟩ := hplaced.2
    refine ⟨?_, nofun, nofun⟩
    show (x.codeAt x.ctx).isSome
    rw [hc]
    rfl
  | recycle =>
    rw [hcons.2] at hfin
    cases hfin

/-- The context of a fiber may move, the code that it stands for stays. -/
theorem FiberMove.codeAt {b : Branch} {x x' : Fiber K} {ph ph' : Phase K}
    (hm : FiberMove b x ph x' ph') : x'.codeAt (ph'.point x') = x.codeAt (ph.point x) := by
  cases hm with
  | call c hc => exact hc.symm
  | callEmpty hc => exact hc.symm
  | _ => rfl

/-- Nor does the turn go to another. -/
theorem FiberMove.turn {b : Branch} {x x' : Fiber K} {ph ph' : Phase K}
    (hm : FiberMove b x ph x' ph') (hplaced : Placed (.on b ph) x) (f : Nat) :
    ph'.turn f x' = ph.turn f x := by
  cases hm with
  | callEmpty hc =>
    -- a task at its entry has a callback
    have hsome : x.cb.isSome := hplaced.2
    rw [hc] at hsome
    cases hsome
  | yield st c => cases st <;> rfl
  | back hb => exact absurd hb hplaced.1
  | isReady hx => rfl
  | notReady hx => simp [Phase.turn, hx]
  | _ => rfl

namespace State

variable {s t : State K} {w : Nat} {y : Worker K}

/-- Worker `w` moves on to `y`. -/
structure WorkerMoves (s t : State K) (w : Nat) (y : Worker K) : Prop where
  live : (s.workers w).pc ≠ .exited
  workers : t.workers = Function.update s.workers w y
  nworkers : t.nworkers = s.nworkers

/-- The only worker that runs is the last one made, so its move is seen. -/
theorem WorkerMoves.last (h : WorkerMoves s t w y) (hlast : w + 1 = s.nworkers) :
    s.last = s.workers w ∧ t.last = y := by
  have hw : s.nworkers - 1 = w := by omega
  refine ⟨?_, ?_⟩
  · rw [State.last, hw]
  · rw [State.last, h.nworkers, hw, h.workers, Function.update_self]

/-- A fiber that is in nobody's hand, before and after. -/
theorem code_other {f : Nat} (hnfib : f < t.nfib ↔ f < s.nfib) (hheap : t.heap f = s.heap f)
    (hs : s.last.pc.hand ≠ some f) (ht : t.last.pc.hand ≠ some f) : t.code f = s.code f := by
  rw [code, code, hheap, PC.point_of_ne hs, PC.point_of_ne ht]
  simp only [hnfib]

/-- No fiber changes, and no context moves. -/
theorem code_congr (hheap : t.heap = s.heap) (hnfib : t.nfib = s.nfib)
    (hpoint : ∀ f x, t.last.pc.point f x = s.last.pc.point f x) (f : Nat) :
    t.code f = s.code f := by
  rw [code, code, hheap, hnfib, hpoint]

/-- The fibers in the queue of the machine. -/
theorem fibers_fifo :
    s.fifo.fibers = s.last.pc.popped.filterMap Task.fiber? ++ queuedFibers s.fibers := by
  rw [Fifo.fibers, fifo, List.filterMap_append, List.filterMap_map]
  rfl

/-- Two states of the machine are equal field by field. -/
theorem fifo_eq {m : Fifo K} (hqueue : s.last.pc.popped ++ s.fibers.map (·.task) = m.queue)
    (hcode : ∀ f, s.code f = m.code f) (hturn : s.last.pc.turn s.heap = m.turn) : s.fifo = m := by
  cases m
  rw [fifo, hqueue, hturn, funext hcode]

end State

/-! ### What holds in these runs -/

/-- A task by its state and context, and what the worker has in hand. -/
def TaskAt (p : Pos K) (x : Fiber K) (_ : Unit) : Prop :=
  Consistent p x ∧ (x.idle = false → Placed p x)

/-- `cb_fiber` between two callbacks. -/
def Fiber.Recycled (x : Fiber K) : Prop :=
  x.state = .init ∧ x.ctx = .entry ∧ x.cb = none

/-- What the worker keeps for the next callback, and that it is not what it has taken. -/
structure CbKept (s : State K) : Prop where
  spare : ∀ w f, (s.workers w).pc ≠ .exited → (s.workers w).cbFiber = some f →
    (s.workers w).pc.hand ≠ some f → (s.heap f).Recycled
  loose : ∀ w f, (s.workers w).pc.loose = some f → (s.workers w).cbFiber ≠ some f

/-- What holds in every run with one worker, on thread `tid`: the invariants of all
    schedulers, what being alone adds to them, and that the machine that is seen is sound. -/
structure Lone (tid : Int) (s : State K) : Prop where
  wf : WellFormed s
  solo : Solo tid s
  owned : Owned (fun _ => True) () TaskAt s fun _ => ()
  idle : IdleOk true s
  active : busyCount s ≤ s.activeThreadCount
  thread : ∀ e ∈ s.fibers, e.thread = -1 ∨ e.thread = tid
  cb : CbKept s
  sound : s.fifo.Sound

namespace Lone

variable {tid : Int} {s : State K}

section worker
variable {w : Nat}

/-- A worker that has not left `run` is the one that is seen. -/
theorem last_eq (h : Lone tid s) (hw : (s.workers w).pc ≠ .exited) : s.last = s.workers w :=
  h.solo.single.last_eq h.wf hw

/-- What is in hand, and not the idle fiber, is a task. -/
theorem on_task (h : Lone tid s) {b : Branch} {f : Nat} {ph : Phase K}
    (hpc : (s.workers w).pc = .on b f ph) (hb : b ≠ .idle) :
    (f < s.nfib ∧ (s.heap f).idle = false) ∧ Consistent (.on b ph) (s.heap f) ∧
      Placed (.on b ph) (s.heap f) := by
  obtain ⟨hlt, hkind⟩ := h.wf.on_lt hpc
  have hidle : (s.heap f).idle = false := by simpa [hb] using hkind
  obtain ⟨hcons, hplaced⟩ := h.owned.on w b f ph trivial hpc
  exact ⟨⟨hlt, hidle⟩, hcons, hplaced hidle⟩

/-- A fiber that is not in hand. -/
theorem at_rest (h : Lone tid s) {f : Nat} (hlt : f < s.nfib)
    (hf : s.last.pc.hand ≠ some f) : TaskAt .free (s.heap f) () := by
  apply h.owned.free f trivial hlt
  intro v hv
  have hlive : (s.workers v).pc ≠ .exited := by
    intro hexit
    rw [hexit] at hv
    cases hv
  rw [h.last_eq hlive] at hf
  exact hf hv

/-- Where the task in hand goes on. -/
theorem code_on (h : Lone tid s) {b : Branch} {f : Nat} {ph : Phase K}
    (hpc : (s.workers w).pc = .on b f ph) (hb : b ≠ .idle) :
    s.code f = (s.heap f).codeAt (ph.point (s.heap f)) := by
  have hlast := h.last_eq (w := w) (by simp [hpc])
  rw [State.code, if_pos (h.on_task hpc hb).1, hlast, hpc, PC.point_on]

/-- Where a task goes on that is not in hand: at its saved context. -/
theorem code_rest {f : Nat} (hlt : f < s.nfib) (hidle : (s.heap f).idle = false)
    (hf : s.last.pc.hand ≠ some f) : s.code f = (s.heap f).codeAt (s.heap f).ctx := by
  rw [State.code, if_pos ⟨hlt, hidle⟩, PC.point_of_ne hf]

/-- What is not made yet cannot go on, -/
theorem code_new {f : Nat} (hf : s.nfib ≤ f) : s.code f = none := by
  rw [State.code, if_neg (by omega)]

/-- nor is the idle fiber seen to. -/
theorem code_idle {f : Nat} (hf : (s.heap f).idle = true) : s.code f = none := by
  rw [State.code, if_neg (by simp [hf])]

theorem turn_eq (h : Lone tid s) (hw : (s.workers w).pc ≠ .exited) :
    s.fifo.turn = (s.workers w).pc.turn s.heap := by
  show s.last.pc.turn s.heap = _
  rw [h.last_eq hw]

/-- The queue that is seen, from where the worker is. -/
theorem queue_eq (h : Lone tid s) (hw : (s.workers w).pc ≠ .exited) :
    s.fifo.queue = (s.workers w).pc.popped ++ s.fibers.map (·.task) := by
  show s.last.pc.popped ++ _ = _
  rw [h.last_eq hw]

/-- A task that is queued, or popped and not begun, can go on. -/
theorem queued_code (h : Lone tid s) {f : Nat} (hf : .fiber f ∈ s.fifo.queue) :
    (s.code f).isSome :=
  (h.sound.queued f (List.mem_filterMap.mpr ⟨.fiber f, hf, rfl⟩)).1

end worker

/-- The worker takes the head of the queue, and nothing only if there is nothing. -/
theorem scan_head (h : Lone tid s) {w : Nat} (hpc : (s.workers w).pc = .scan) :
    scanQueue s.heap (s.workers w).tid s.fibers = s.fibers.head?.map fun e =>
      (e, s.fibers.tail) := by
  cases hq : s.fibers with
  | nil => rfl
  | cons e q =>
    have htid := h.solo.tid w (by simp [hpc])
    have hthread := h.thread e (by simp [hq])
    -- the first entry is for this thread and not executed, so the scan stops there
    have hskip : e.skipped s.heap (s.workers w).tid = false := by
      unfold FiberAndThread.skipped
      have hmine : ¬ (e.thread ≠ -1 ∧ e.thread ≠ (s.workers w).tid) := by
        rw [htid]
        omega
      rw [if_neg hmine]
      cases htask : e.task with
      | cb k => rfl
      | fiber f =>
        -- nobody executes it: the worker is here
        have hlt := (h.wf.queue e (by simp [hq]) f htask).1
        have hrest := h.at_rest hlt (by rw [h.last_eq (w := w) (by simp [hpc]), hpc]; exact nofun)
        simpa using hrest.1.2
    simp [scanQueue, hskip]

/-- What the worker takes up can go on. -/
theorem takesRipe (h : Lone tid s) (l : Label K) : TakesRipe Fiber.CanGoOn s l := by
  intro f hf
  obtain ⟨w, e, q, -, hpc, hq, htask⟩ := event_take hf
  obtain ⟨pre, post, hfib, -⟩ := scanQueue_some hq
  have hmem : e ∈ s.fibers := by simp [hfib]
  have hlast := h.last_eq (w := w) (by simp [hpc])
  have hqueued : .fiber f ∈ s.fifo.queue := by
    apply List.mem_append_right
    exact List.mem_map.mpr ⟨e, hmem, htask⟩
  obtain ⟨hlt, hidle⟩ := h.wf.queue e hmem f htask
  have hsome := h.queued_code hqueued
  rwa [code_rest hlt hidle (by rw [hlast, hpc]; exact nofun)] at hsome

/-! ### One step of the worker -/

section update
variable {t : State K} {w : Nat} {y : Worker K}

/-- Both ends of a move are seen. -/
theorem last_move (h : Lone tid s) (hmove : State.WorkerMoves s t w y) :
    s.last = s.workers w ∧ t.last = y :=
  hmove.last (h.solo.single.eq_last h.wf hmove.live)

/-- The worker moves, and the state is seen as `m` then. -/
theorem fifo_update (h : Lone tid s) (hmove : State.WorkerMoves s t w y) {m : Fifo K}
    (hqueue : y.pc.popped ++ t.fibers.map (·.task) = m.queue)
    (hcode : ∀ f, t.code f = m.code f) (hturn : y.pc.turn t.heap = m.turn) : t.fifo = m := by
  have hlast := (h.last_move hmove).2
  apply State.fifo_eq
  · rw [hlast, hqueue]
  · exact hcode
  · rw [hlast, hturn]

/-- A move that changes no fiber leaves all code where it is. -/
theorem code_same (h : Lone tid s) (hmove : State.WorkerMoves s t w y) (hheap : t.heap = s.heap)
    (hnfib : t.nfib = s.nfib)
    (hpoint : ∀ f x, y.pc.point f x = (s.workers w).pc.point f x) (f : Nat) :
    t.code f = s.code f := by
  obtain ⟨hs, ht⟩ := h.last_move hmove
  apply State.code_congr hheap hnfib
  rw [hs, ht]
  exact hpoint

/-- Fiber `f`, the only one that the worker has in hand before or after, becomes `x`. -/
theorem code_set (h : Lone tid s) (hmove : State.WorkerMoves s t w y) {f : Nat} {x : Fiber K}
    (hheap : t.heap = Function.update s.heap f x) (hnfib : t.nfib = s.nfib) (hlt : f < s.nfib)
    (hs : ∀ g, (s.workers w).pc.hand = some g → g = f)
    (ht : ∀ g, y.pc.hand = some g → g = f)
    {o : Option (Code K)} (hidle : x.idle = true → o = none)
    (htask : x.idle = false → o = x.codeAt (y.pc.point f x)) :
    ∀ g, t.code g = (s.fifo.setCode f o).code g := by
  obtain ⟨hs', ht'⟩ := h.last_move hmove
  have hself : t.heap f = x := by rw [hheap, Function.update_self]
  intro g
  by_cases hg : g = f
  · subst hg
    have hset : (s.fifo.setCode g o).code g = o := Function.update_self ..
    rw [hset]
    cases hx : x.idle with
    | true =>
      rw [hidle hx]
      exact code_idle (hself ▸ hx)
    | false => rw [htask hx, State.code, hself, if_pos ⟨hnfib ▸ hlt, hx⟩, ht']
  · have hset : (s.fifo.setCode f o).code g = s.code g := Function.update_of_ne hg ..
    rw [hset]
    apply State.code_other (hnfib ▸ Iff.rfl)
    · rw [hheap, Function.update_of_ne hg]
    · rw [hs']
      exact fun hhand => hg (hs g hhand)
    · rw [ht']
      exact fun hhand => hg (ht g hhand)

end update

/-- One fiber is in hand in a branch. -/
theorem eq_of_hand {b : Branch} {f : Nat} {ph : Phase K} :
    ∀ g, (PC.on b f ph).hand = some g → g = f := by
  intro g hg
  exact (Option.some.inj hg).symm

/-- The code in a task does something that changes this task only. -/
theorem fifo_task (h : Lone tid s) {w : Nat} {b : Branch} {f : Nat} {ph ph' : Phase K} {x : Fiber K}
    (hpc : (s.workers w).pc = .on b f ph) (hb : b ≠ .idle) (hx : x.idle = (s.heap f).idle) :
    ((s.setFiber f x).setPC w (.on b f ph')).fifo =
      { s.fifo.setCode f (x.codeAt (ph'.point x)) with turn := ph'.turn f x } := by
  obtain ⟨⟨hlt, hidle⟩, -, -⟩ := h.on_task hpc hb
  have hw : (s.workers w).pc ≠ .exited := by simp [hpc]
  have hmove : State.WorkerMoves s ((s.setFiber f x).setPC w (.on b f ph')) w
      { s.workers w with pc := .on b f ph' } := ⟨hw, rfl, rfl⟩
  -- only `f` has code that moves, and the turn is read off its new state
  apply h.fifo_update hmove
  · show [] ++ s.fibers.map (·.task) = s.fifo.queue
    rw [h.queue_eq hw, hpc]
    rfl
  · apply h.code_set hmove rfl rfl hlt
    · rw [hpc]
      exact eq_of_hand
    · exact eq_of_hand
    · intro hx'
      rw [hx, hidle] at hx'
      cases hx'
    · intro _
      rw [PC.point_on]
  · rw [PC.turn_on hb]
    show ph'.turn f (Function.update s.heap f x f) = _
    rw [Function.update_self]

/-- A fiber may be given the code that it has. -/
theorem setCode_same (m : Fifo K) {f : Nat} {o : Option (Code K)} (ho : o = m.code f) :
    m.setCode f o = m := by
  subst ho
  cases m
  simp [Fifo.setCode]

/-- The idle fiber is not seen. -/
theorem fifo_idle (h : Lone tid s) {w f : Nat} {ph ph' : Phase K} {x : Fiber K}
    (hpc : (s.workers w).pc = .on .idle f ph) (hx : x.idle = (s.heap f).idle) :
    ((s.setFiber f x).setPC w (.on .idle f ph')).fifo = s.fifo := by
  have hw : (s.workers w).pc ≠ .exited := by simp [hpc]
  obtain ⟨hlt, hkind⟩ := h.wf.on_lt hpc
  have hidle : (s.heap f).idle = true := hkind.mpr rfl
  have hnone : s.code f = none := code_idle hidle
  have hset : s.fifo.setCode f none = s.fifo := setCode_same _ hnone.symm
  have hmove : State.WorkerMoves s ((s.setFiber f x).setPC w (.on .idle f ph')) w
      { s.workers w with pc := .on .idle f ph' } := ⟨hw, rfl, rfl⟩
  -- setting the code that it has not changes nothing
  apply h.fifo_update hmove
  · rw [h.queue_eq hw, hpc]
    rfl
  · rw [← hset]
    apply h.code_set hmove rfl rfl hlt
    · rw [hpc]
      exact eq_of_hand
    · exact eq_of_hand
    · exact fun _ => rfl
    · intro hx'
      rw [hx, hidle] at hx'
      cases hx'
  · rw [h.turn_eq hw, hpc]
    rfl

/-- Between the steps that are seen, a fiber in hand only changes as the scheduler sees it. -/
theorem fifo_fiber (h : Lone tid s) {w : Nat} {b : Branch} {f : Nat}
    {ph ph' : Phase K} {x : Fiber K}
    (hpc : (s.workers w).pc = .on b f ph) (hm : FiberMove b (s.heap f) ph x ph') :
    ((s.setFiber f x).setPC w (.on b f ph')).fifo = s.fifo := by
  have hw : (s.workers w).pc ≠ .exited := by simp [hpc]
  by_cases hb : b = .idle
  · subst hb
    exact h.fifo_idle hpc hm.idle_eq
  · obtain ⟨-, -, hplaced⟩ := h.on_task hpc hb
    -- the code it stands for stays, and so does the turn
    have hcode : x.codeAt (ph'.point x) = s.fifo.code f := by
      show _ = s.code f
      rw [hm.codeAt, h.code_on hpc hb]
    have hturn : ph'.turn f x = s.fifo.turn := by
      rw [h.turn_eq hw, hpc, PC.turn_on hb, hm.turn hplaced]
    rw [h.fifo_task hpc hb hm.idle_eq, setCode_same _ hcode, hturn]

/-- A move of the worker between fibers, or with a fiber whose context stays where it is. -/
theorem fifo_quiet (h : Lone tid s) {t : State K} {w : Nat} {y : Worker K}
    (hmove : State.WorkerMoves s t w y) (hheap : t.heap = s.heap) (hnfib : t.nfib = s.nfib)
    (hpoint : ∀ f x, y.pc.point f x = (s.workers w).pc.point f x)
    (hqueue : y.pc.popped ++ t.fibers.map (·.task) =
      (s.workers w).pc.popped ++ s.fibers.map (·.task))
    (hturn : y.pc.turn s.heap = (s.workers w).pc.turn s.heap) : t.fifo = s.fifo := by
  apply h.fifo_update hmove
  · rw [hqueue, h.queue_eq hmove.live]
  · exact h.code_same hmove hheap hnfib hpoint
  · rw [hheap, hturn, h.turn_eq hmove.live]

/-- What the owner does is not seen. -/
theorem fifo_owner (h : Lone tid s) {t : State K} (hf : OwnerFrame s t) (hsolo : Solo tid t) :
    t.fifo = s.fifo := by
  have same : ∀ {x y : Worker K}, s.last = x → t.last = y → x.pc.popped = y.pc.popped →
      (∀ f z, x.pc.point f z = y.pc.point f z) → x.pc.turn s.heap = y.pc.turn s.heap →
      t.fifo = s.fifo := by
    intro x y hx hy hpopped hpoint hturn
    apply State.fifo_eq
    · rw [hy, hf.fibers, ← hpopped, ← hx]
      rfl
    · intro f
      show t.code f = s.code f
      rw [State.code, State.code, hx, hy, hf.heap, hf.nfib, hpoint]
    · rw [hy, hf.heap, ← hturn, ← hx]
      rfl
  -- `start` may make a worker, the rest of the owner's work leaves the workers alone
  by_cases hn : t.nworkers = s.nworkers
  · have hlast : t.last = s.last := by
      rw [State.last, State.last, hn]
      apply hf.old
      omega
    exact same hlast.symm rfl rfl (fun _ _ => rfl) rfl
  · -- the new worker begins, all others have left
    have hgrow := hf.grow
    have hexit : s.last.pc = .exited := by
      rw [State.last]
      by_cases hzero : s.nworkers = 0
      · rw [h.wf.absent _ (by omega)]
        rfl
      · rw [← hf.old _ (.inl (by omega))]
        exact hsolo.others _ (by omega)
    obtain ⟨tid', hfresh⟩ := hf.fresh (t.nworkers - 1) (by omega) (by omega)
    refine same rfl hfresh ?_ ?_ ?_
    · rw [hexit]
      rfl
    · rw [hexit]
      exact fun _ _ => rfl
    · rw [hexit]
      rfl

/-! ### Scheduling -/

/-- A fiber that waits can be queued. -/
theorem waiting (h : Lone tid s) {f : Nat} (hlt : f < s.nfib) (hidle : (s.heap f).idle = false)
    (hwaits : s.Waits f) : s.fifo.Waiting f := by
  obtain ⟨hqueue, hstate, htaken⟩ := hwaits
  have hnotExec : (s.heap f).state ≠ .exec ∧ (s.heap f).state ≠ .ready ∧
      (s.heap f).state.finished = false := by
    rcases hstate with hst | ⟨hst, -⟩ <;> rw [hst] <;> exact ⟨nofun, nofun, rfl⟩
  have hlast : s.last.pc.taken ≠ some f := by
    by_cases hexit : s.last.pc = .exited
    · rw [hexit]
      exact nofun
    · exact htaken _ (h.wf.lt_nworkers hexit)
  -- it is not in hand, or the worker is past its segment
  have hat : (s.code f).isSome ∧ s.last.pc.turn s.heap ≠ .running f ∧
      s.last.pc.turn s.heap ≠ .ready f := by
    by_cases hhand : s.last.pc.hand = some f
    · match hpc : s.last.pc, hhand with
      | .check (some (.fiber g)), hhand =>
        cases hhand
        rw [hpc] at hlast
        exact absurd rfl hlast
      | .on b g ph, hhand =>
        cases hhand
        have hb : b ≠ .idle := by
          intro hb
          have hkind := (h.wf.on_lt hpc).2.mpr hb
          rw [hidle] at hkind
          cases hkind
        obtain ⟨-, hcons, hplaced⟩ := h.on_task hpc hb
        rw [h.code_on hpc hb, PC.turn_on hb]
        exact Placed.waiting hcons hplaced hnotExec.1 hnotExec.2.1 hnotExec.2.2 (hpc ▸ hlast)
    · have hrest := h.at_rest hlt hhand
      refine ⟨?_, fun hturn => hhand (PC.hand_of_turn (.inl hturn)),
        fun hturn => hhand (PC.hand_of_turn (.inr hturn))⟩
      · rw [code_rest hlt hidle hhand]
        rcases hrest.2 hidle with ⟨hinit, hctx⟩ | ⟨hinit, hleft⟩
        · rcases hstate with hst | ⟨-, hcb⟩
          · rw [hst] at hinit
            cases hinit
          · rw [hctx]
            exact hcb
        · obtain ⟨c, hc⟩ := hleft.body hnotExec.2.2
          rw [hc]
          rfl
  refine ⟨hat.1, fun hmem => ?_, hat.2⟩
  rw [State.fibers_fifo] at hmem
  rcases List.mem_append.mp hmem with hmem | hmem
  · -- popped, and not begun
    obtain ⟨t, ht, htf⟩ := List.mem_filterMap.mp hmem
    rw [Task.fiber?_eq.mp htf] at ht
    match hpc : s.last.pc, ht with
    | .check (some t), ht =>
      rw [hpc, ← List.mem_singleton.mp ht] at hlast
      exact hlast rfl
    | .prepare k, ht => cases List.mem_singleton.mp ht
  · exact hqueue hmem

/-- `schedule` appends to both queues. The machine asks that the fiber waits, which is
    where double scheduling is excluded. -/
theorem fifo_schedule {fc : Option (Task K)} (thread : Int)
    (hfc : ∀ f, fc = some (.fiber f) → s.fifo.Waiting f) :
    s.fifo.does (.schedule fc thread) = some (s.schedule fc thread).fifo := by
  have push :
      ∀ t, { s.fifo with queue := s.fifo.queue ++ [t] } = (s.schedule (some t) thread).fifo := by
    intro t
    symm
    apply State.fifo_eq
    · show s.last.pc.popped ++ (s.fibers ++ [(⟨t, thread⟩ : FiberAndThread K)]).map (·.task) =
        (s.last.pc.popped ++ s.fibers.map (·.task)) ++ [t]
      simp
    · exact fun _ => rfl
    · rfl
  match fc with
  | none => rfl
  | some (.cb k) => exact congrArg some (push (.cb k))
  | some (.fiber f) =>
    rw [Fifo.does, if_pos (hfc f rfl), push]

/-- A new fiber can go on where its callback begins. -/
theorem fifo_alloc (hhand : ∀ f, s.last.pc.hand = some f → f < s.nfib) (k : K) :
    (s.alloc (.new (.user k) false)).fifo = s.fifo.setCode s.nfib (some (.user k)) := by
  apply State.fifo_eq
  · rfl
  · intro f
    show (s.alloc _).code f = Function.update s.code s.nfib (some (.user k)) f
    by_cases hf : f = s.nfib
    · subst hf
      -- nobody has it in hand yet, so it stands at its entry
      have hnot : s.last.pc.hand ≠ some s.nfib := fun hf => Nat.lt_irrefl _ (hhand _ hf)
      rw [Function.update_self, State.code, s.alloc_self]
      show (if s.nfib < s.nfib + 1 ∧ false = false then _ else none) = _
      rw [if_pos ⟨Nat.lt_succ_self _, rfl⟩]
      show Fiber.codeAt _ (s.last.pc.point _ _) = _
      rw [PC.point_of_ne hnot]
      rfl
    · rw [Function.update_of_ne hf]
      have hlt : f < s.nfib + 1 ↔ f < s.nfib := by omega
      show (if f < s.nfib + 1 ∧ _ then _ else none) = _
      rw [s.alloc_ne f _ hf, State.code]
      simp only [hlt]
      rfl
  · show s.last.pc.turn (s.alloc _).heap = s.last.pc.turn s.heap
    match hpc : s.last.pc with
    | .on .idle f ph => rfl
    | .on .task f ph | .on .cb f ph =>
      have hne : f ≠ s.nfib := Nat.ne_of_lt (hhand f (by rw [hpc]; rfl))
      show ph.turn f ((s.alloc _).heap f) = ph.turn f (s.heap f)
      rw [s.alloc_ne f _ hne]
    | .prelude | .scan | .check _ | .prepare _ | .idleTest | .exited => rfl

/-- A fiber made from a callback, from outside or by a task. -/
theorem does_newFiber (hhand : ∀ f, s.last.pc.hand = some f → f < s.nfib) (k : K) :
    s.fifo.does (.newFiber k s.nfib) = some (s.alloc (.new (.user k) false)).fifo := by
  have hnone : (s.fifo.code s.nfib).isNone := by
    show (s.code s.nfib).isNone
    rw [code_new (Nat.le_refl _)]
    rfl
  rw [Fifo.does, if_pos hnone, fifo_alloc hhand]

/-! ### The simulation -/

/-- No assertion of the source fails in these runs. -/
theorem not_fails (h : Lone tid s) {l : Label K} {e : Fault} : ¬ Fails s l e := by
  intro hf
  -- each assertion, by what is known of the fiber in hand at its phase
  cases hf with
  | swapInExec hpc hexec => exact (h.owned.on _ _ _ _ trivial hpc).1.2 hexec
  | yieldNotExec hpc _ hexec => exact hexec (h.owned.on _ _ _ _ trivial hpc).1.2
  | @reset w f k hpc hcb hx =>
    have hspare := h.cb.spare w f (by simp [hpc]) hcb (by simp [hpc, PC.hand])
    -- the kept fiber was recycled, so `reset` finds it in `INIT`
    rw [hspare.1] at hx
    cases hx
  | recycle hpc hx =>
    have hfin := (h.owned.on _ _ _ _ trivial hpc).1.2
    revert hx hfin
    cases (s.heap _).state <;> simp [FiberState.resettable, FiberState.finished]
  | @neverReach w b f hpc =>
    by_cases hb : b = .idle
    · have hkind := (h.wf.on_lt hpc).2.mpr hb
      rcases (h.idle.on w b f _ hkind hpc hkind).2 with ⟨hp, -⟩ | hp | hp |
        ⟨-, hp⟩ <;> cases hp
    · have hplaced := (h.on_task hpc hb).2.2.2
      cases hplaced

/-- What is popped has not ended. -/
theorem not_checkDone (h : Lone tid s) {w f : Nat}
    (hpc : (s.workers w).pc = .check (some (.fiber f))) :
    ¬ (s.heap f).state.finished = true := by
  intro hx
  obtain ⟨-, hidle⟩ := (h.wf.worker w).check f hpc
  obtain ⟨-, hplaced⟩ := h.owned.checked w f trivial hpc
  obtain ⟨⟨hinit, -⟩ | ⟨-, hleft⟩, hsome⟩ := hplaced hidle
  · rw [hinit] at hx
    cases hx
  · rw [hleft.done hx] at hsome
    cases hsome

/-- The idle fiber schedules nothing and makes no fibers. -/
theorem idle_acts (h : Lone tid s) {w f : Nat} {c c' : Code K} {a : Act K}
    (hpc : (s.workers w).pc = .on .idle f (.inside (.body c))) (hc : c.resume P a = some c') :
    a = .yieldToHold ∨ (∃ v, a = .stopping v) ∨ a = .ret := by
  have hkind := (h.wf.on_lt hpc).2.mpr rfl
  rcases ((h.idle.on w .idle f _ hkind hpc hkind).resume hc fun _ => rfl).1 with
    ⟨-, ha⟩ | ⟨-, ha⟩ | ⟨-, -, ha | ha⟩
  · exact .inl ha
  · exact .inr (.inl ⟨_, ha⟩)
  · exact .inr (.inl ⟨_, ha⟩)
  · exact .inr (.inr ha)

/-- While a segment runs, `stopping()` answers false. -/
theorem not_stopping (h : Lone tid s) {w : Nat} {b : Branch} {f : Nat} {p : Point K}
    (hpc : (s.workers w).pc = .on b f (.inside p)) (hb : b ≠ .idle) : s.stopping = false := by
  have hbusy : (s.workers w).pc.busy = true := by simp [hpc, PC.busy, hb, Phase.inSwapIn]
  -- the segment itself is counted
  have hpos := busy_le_busyCount h.wf hbusy
  have hle := h.active
  have hne : s.activeThreadCount ≠ 0 := by omega
  simp [State.stopping, hne]

/-- The code in a task does what the segment does. -/
theorem simulate_act (h : Lone tid s) {s' : State K} {w f : Nat} {b : Branch} {c : Code K}
    {a : Act K} (hpc : (s.workers w).pc = .on b f (.inside (.body c))) (hb : b ≠ .idle)
    (hact : s.fifo.actStep P f c a = some s'.fifo) :
    (fifo P).exec s.fifo (s.observe (.act w a)).toList = some s'.fifo := by
  have hw : (s.workers w).pc ≠ .exited := by simp [hpc]
  have hsee : s.observe (.act w a) = some (.act a) := by
    cases b with
    | idle => exact absurd rfl hb
    | _ => simp [State.observe, hpc]
  have hturn : s.fifo.turn = .running f := by
    rw [h.turn_eq hw, hpc, PC.turn_on hb]
    rfl
  have hcode : s.fifo.code f = some c := by
    show s.code f = _
    rw [h.code_on hpc hb]
    rfl
  rw [hsee]
  show ((fifo P).step s.fifo (.act a)).bind some = _
  rw [Option.bind_fun_some]
  show Fifo.step P s.fifo (.act a) = _
  rw [Fifo.step, hturn]
  simp only [hcode, Option.bind_some]
  exact hact

/-- What a task does by itself: it yields, ends, throws or asks `stopping()`. -/
theorem simulate_code (h : Lone tid s) {s' : State K} {w f : Nat} {b : Branch} {c c' : Code K}
    {a : Act K} {x : Fiber K} {ph' : Phase K}
    (hpc : (s.workers w).pc = .on b f (.inside (.body c))) (hb : b ≠ .idle)
    (hc : c.resume P a = some c') (hx : CodeMove c' a (s.heap f) x ph')
    (hv : ∀ v, a = .stopping v → v = s.stopping)
    (hs' : s' = (s.setFiber f x).setPC w (.on b f ph')) :
    (fifo P).exec s.fifo (s.observe (.act w a)).toList = some s'.fifo := by
  have hw : (s.workers w).pc ≠ .exited := by simp [hpc]
  have hturn : s.fifo.turn = .running f := by
    rw [h.turn_eq hw, hpc, PC.turn_on hb]
    rfl
  apply h.simulate_act hpc hb
  rw [hs', h.fifo_task hpc hb hx.idle_eq, Fifo.actStep, hc]
  cases hx with
  | @stopping _ v =>
    -- the machine has no stop: this segment keeps the answer false
    have hfalse : v = false := (hv v rfl).trans (h.not_stopping hpc hb)
    subst hfalse
    show some (s.fifo.setCode f (some c'))
        = some { s.fifo.setCode f (some c') with turn := .running f }
    rw [← hturn]
    rfl
  | _ => rfl

/-- Before its next segment, the code in a task goes on and somebody is scheduled or made. -/
theorem fifo_goOn (h : Lone tid s) {w f : Nat} {b : Branch} {c c' : Code K}
    (hpc : (s.workers w).pc = .on b f (.inside (.body c))) (hb : b ≠ .idle) :
    (s.setPC w (.on b f (.inside (.body c')))).fifo = s.fifo.setCode f (some c') := by
  have hw : (s.workers w).pc ≠ .exited := by simp [hpc]
  have hturn : s.fifo.turn = .running f := by
    rw [h.turn_eq hw, hpc, PC.turn_on hb]
    rfl
  have htask : ((s.setFiber f (s.heap f)).setPC w (.on b f (.inside (.body c')))).fifo = _ :=
    h.fifo_task hpc hb rfl
  rw [s.setFiber_heap] at htask
  rw [htask]
  show { s.fifo.setCode f (some c') with turn := .running f } = s.fifo.setCode f (some c')
  rw [← hturn]
  rfl

/-- A segment that goes on takes no fiber out of its wait. -/
theorem waiting_setCode {m : Fifo K} {f g : Nat} {c : Code K} (hwait : m.Waiting f) :
    (m.setCode g (some c)).Waiting f :=
  ⟨Fifo.isSome_setCode hwait.1, hwait.2⟩

/-- The head of the queue begins. -/
theorem simulate_begin {s' : State K} {w f : Nat}
    (hsee : s.observe (.work w) = some (.begin f)) (hact : s.fifo.beginStep f = some s'.fifo) :
    (fifo P).exec s.fifo (s.observe (.work w)).toList = some s'.fifo := by
  rw [hsee]
  show ((fifo P).step s.fifo (.begin f)).bind some = _
  rw [Option.bind_fun_some]
  exact hact

/-- A fiber task leaves the queue of the machine when its segment begins. -/
theorem simulate_checkFiber (h : Lone tid s) {w f : Nat}
    (hpc : (s.workers w).pc = .check (some (.fiber f))) :
    (fifo P).exec s.fifo (s.observe (.work w)).toList =
      some (s.setPC w (.on .task f .assertNotExec)).fifo := by
  have hw : (s.workers w).pc ≠ .exited := by simp [hpc]
  have hmove : State.WorkerMoves s (s.setPC w (.on .task f .assertNotExec)) w
      { s.workers w with pc := .on .task f .assertNotExec } := ⟨hw, rfl, rfl⟩
  -- nobody has the turn between two segments
  apply simulate_begin (f := f) (by simp [State.observe, hpc])
  have hturn : s.fifo.turn = .none := by
    rw [h.turn_eq hw, hpc]
    rfl
  have hqueue : s.fifo.queue = .fiber f :: s.fibers.map (·.task) := by
    rw [h.queue_eq hw, hpc]
    rfl
  rw [Fifo.beginStep, hturn, hqueue]
  show (if f = f then _ else none) = _
  rw [if_pos rfl]
  symm
  refine congrArg some (h.fifo_update hmove rfl ?_ rfl)
  apply h.code_same hmove rfl rfl
  intro g x
  rw [hpc]
  by_cases hg : f = g <;> simp [PC.point, Phase.point]

/-- A callback begins in a fiber that has been of no use before. -/
theorem simulate_prepare (h : Lone tid s) {t : State K} {w f : Nat} {k : K} {y : Worker K}
    (hpc : (s.workers w).pc = .prepare k) (hsee : s.observe (.work w) = some (.begin f))
    (hnone : s.code f = none) (hmove : State.WorkerMoves s t w y)
    (hy : y.pc = .on .cb f .assertNotExec) (hfibers : t.fibers = s.fibers)
    (hcode : ∀ g, t.code g = (s.fifo.setCode f (some (.user k))).code g) :
    (fifo P).exec s.fifo (s.observe (.work w)).toList = some t.fifo := by
  have hw := hmove.live
  apply simulate_begin hsee
  have hturn : s.fifo.turn = .none := by
    rw [h.turn_eq hw, hpc]
    rfl
  have hqueue : s.fifo.queue = .cb k :: s.fibers.map (·.task) := by
    rw [h.queue_eq hw, hpc]
    rfl
  have hfree : (s.fifo.code f).isNone := by
    show (s.code f).isNone
    rw [hnone]
    rfl
  rw [Fifo.beginStep, hturn, hqueue]
  show (if (s.fifo.code f).isNone then _ else none) = _
  rw [if_pos hfree]
  symm
  refine congrArg some (h.fifo_update hmove ?_ hcode ?_)
  · rw [hy, hfibers]
    rfl
  · rw [hy]
    rfl

/-- A callback in the fiber that the worker kept for it, reset to the new function, -/
theorem simulate_prepareOld (h : Lone tid s) {w f : Nat} {k : K}
    (hpc : (s.workers w).pc = .prepare k) (hcb : (s.workers w).cbFiber = some f) :
    (fifo P).exec s.fifo (s.observe (.work w)).toList =
      some ((s.setFiber f ((s.heap f).reset (some (.user k)))).setPC w
        (.on .cb f .assertNotExec)).fifo := by
  have hw : (s.workers w).pc ≠ .exited := by simp [hpc]
  have hlast := h.last_eq hw
  obtain ⟨hlt, hidle⟩ := (h.wf.worker w).cb f hcb
  have hnone : s.code f = none := by
    -- the kept fiber has no callback, so the machine finds it free
    obtain ⟨-, hctx, hnil⟩ := h.cb.spare w f hw hcb (by simp [hpc, PC.hand])
    rw [code_rest hlt hidle (by simp [hlast, hpc, PC.hand]), hctx]
    exact hnil
  have hmove : State.WorkerMoves s
      ((s.setFiber f ((s.heap f).reset (some (.user k)))).setPC w (.on .cb f .assertNotExec)) w
      { s.workers w with pc := .on .cb f .assertNotExec } := ⟨hw, rfl, rfl⟩
  refine h.simulate_prepare hpc (by simp [State.observe, hpc, hcb]) hnone hmove rfl rfl ?_
  apply h.code_set hmove rfl rfl hlt
  · rw [hpc]
    simp [PC.hand]
  · exact eq_of_hand
  · intro hx
    have hx : (s.heap f).idle = true := hx
    rw [hidle] at hx
    cases hx
  · intro _
    rw [PC.point_on]
    rfl

/-- and in a fiber made for it. -/
theorem simulate_prepareNew (h : Lone tid s) {w : Nat} {k : K}
    (hpc : (s.workers w).pc = .prepare k) (hcb : (s.workers w).cbFiber = none) :
    (fifo P).exec s.fifo (s.observe (.work w)).toList =
      some ((s.alloc (.new (.user k) false)).setWorker w { s.workers w with
        pc := .on .cb s.nfib .assertNotExec, cbFiber := some s.nfib }).fifo := by
  have hw : (s.workers w).pc ≠ .exited := by simp [hpc]
  have hmove : State.WorkerMoves s ((s.alloc (.new (.user k) false)).setWorker w { s.workers w with
      pc := .on .cb s.nfib .assertNotExec, cbFiber := some s.nfib }) w
      { s.workers w with pc := .on .cb s.nfib .assertNotExec, cbFiber := some s.nfib } :=
    ⟨hw, rfl, rfl⟩
  refine h.simulate_prepare hpc (by simp [State.observe, hpc, hcb]) (code_new (Nat.le_refl _)) hmove
    rfl rfl ?_
  obtain ⟨hs, ht⟩ := h.last_move hmove
  -- the fiber is made first, and the worker goes on with it then
  have halloc : ∀ g, (s.alloc (.new (.user k) false)).code g =
      (s.fifo.setCode s.nfib (some (.user k))).code g := by
    intro g
    rw [← fifo_alloc fun f hf => h.wf.hand_lt hf]
    rfl
  intro g
  rw [← halloc g]
  refine State.code_congr ?_ ?_ ?_ g
  · rfl
  · rfl
  intro f x
  have hold : (s.alloc (.new (.user k) false)).last = s.workers w := hs
  rw [ht, hold, hpc]
  by_cases hf : s.nfib = f <;> simp [PC.point, Phase.point]

/-- The idle fiber is made, and not seen. -/
theorem simulate_prelude (h : Lone tid s) {w : Nat} (hpc : (s.workers w).pc = .prelude) :
    ((s.alloc (.new P.idle true)).setWorker w
      { s.workers w with pc := .scan, idleFiber := some s.nfib }).fifo = s.fifo := by
  have hw : (s.workers w).pc ≠ .exited := by simp [hpc]
  have hmove : State.WorkerMoves s ((s.alloc (.new P.idle true)).setWorker w
      { s.workers w with pc := .scan, idleFiber := some s.nfib }) w
      { s.workers w with pc := .scan, idleFiber := some s.nfib } := ⟨hw, rfl, rfl⟩
  obtain ⟨hs, ht⟩ := h.last_move hmove
  apply h.fifo_update hmove
  · rw [h.queue_eq hw, hpc]
    rfl
  · intro f
    by_cases hf : f = s.nfib
    · subst hf
      have hnew : s.fifo.code s.nfib = none := code_new (Nat.le_refl _)
      rw [hnew]
      apply code_idle
      show ((s.alloc (.new P.idle true)).heap s.nfib).idle = true
      rw [s.alloc_self]
      rfl
    · have hlt : f < s.nfib + 1 ↔ f < s.nfib := by omega
      apply State.code_other hlt
      · exact s.alloc_ne f _ hf
      · rw [hs, hpc]
        exact nofun
      · rw [ht]
        exact nofun
  · rw [h.turn_eq hw, hpc]
    rfl

/-- The worker lets go of what it has in hand. -/
theorem code_release (h : Lone tid s) {t : State K} {w f : Nat} {b : Branch} {ph : Phase K}
    {y : Worker K} {x : Fiber K} (hpc : (s.workers w).pc = .on b f ph)
    (hmove : State.WorkerMoves s t w y) (hy : y.pc = .scan)
    (hheap : t.heap = Function.update s.heap f x) (hnfib : t.nfib = s.nfib)
    (hidle : x.idle = (s.heap f).idle) (hcode : b ≠ .idle → x.codeAt x.ctx = s.code f) :
    ∀ g, t.code g = s.code g := by
  obtain ⟨hlt, hkind⟩ := h.wf.on_lt hpc
  have hset : s.fifo.setCode f (s.code f) = s.fifo := setCode_same _ rfl
  have hall : ∀ g, t.code g = (s.fifo.setCode f (s.code f)).code g := by
    apply h.code_set hmove hheap hnfib hlt
    · rw [hpc]
      exact eq_of_hand
    · rw [hy]
      exact nofun
    · intro hx
      rw [hidle] at hx
      exact code_idle hx
    · intro hx
      rw [hy, ← hcode]
      · rfl
      · intro hb
        rw [hidle, hkind.mpr hb] at hx
        cases hx
  rw [hset] at hall
  exact hall

/-- A task that has yielded `READY` goes to the tail of both queues. -/
theorem simulate_requeue (h : Lone tid s) {w f : Nat} {b : Branch}
    (hpc : (s.workers w).pc = .on b f .requeue) :
    (fifo P).exec s.fifo (s.observe (.work w)).toList =
      some ((s.schedule (some (.fiber f)) (-1)).setWorker w { s.workers w with
        pc := .scan, cbFiber := if b = .cb then none else (s.workers w).cbFiber }).fifo := by
  have hw : (s.workers w).pc ≠ .exited := by simp [hpc]
  have hb : b ≠ .idle := (h.wf.worker w).fits b f _ hpc
  obtain ⟨-, hcons, -⟩ := h.on_task hpc hb
  have hmove :
      State.WorkerMoves s ((s.schedule (some (.fiber f)) (-1)).setWorker w { s.workers w with
      pc := .scan, cbFiber := if b = .cb then none else (s.workers w).cbFiber }) w
      { s.workers w with
        pc := .scan, cbFiber := if b = .cb then none else (s.workers w).cbFiber } :=
          ⟨hw, rfl, rfl⟩
  have hturn : s.fifo.turn = .ready f := by
    rw [h.turn_eq hw, hpc, PC.turn_on hb]
    simp [Phase.turn, hcons.2]
  have hsee : s.observe (.work w) = some .requeue := by simp [State.observe, hpc]
  -- let go of, it stands at its context, where it went on in hand too
  have hcode := h.code_release (x := s.heap f) hpc hmove rfl
    (Function.update_eq_self f s.heap).symm rfl rfl fun _ => (h.code_on hpc hb).symm
  rw [hsee]
  show ((fifo P).step s.fifo .requeue).bind some = _
  rw [Option.bind_fun_some]
  show Fifo.step P s.fifo .requeue = _
  rw [Fifo.step, hturn]
  symm
  refine congrArg some (h.fifo_update hmove ?_ hcode rfl)
  show [] ++ (s.fibers ++ [(⟨.fiber f, -1⟩ : FiberAndThread K)]).map (·.task) =
    s.fifo.queue ++ [.fiber f]
  rw [h.queue_eq hw, hpc, List.map_append]
  rfl

/-- A segment that has not yielded `READY` is over, and the bookkeeping behind it. -/
theorem fifo_release (h : Lone tid s) {t : State K} {w f : Nat} {b : Branch} {ph : Phase K}
    {y : Worker K} {x : Fiber K} (hpc : (s.workers w).pc = .on b f ph)
    (hmove : State.WorkerMoves s t w y) (hy : y.pc = .scan)
    (hheap : t.heap = Function.update s.heap f x) (hnfib : t.nfib = s.nfib)
    (hfibers : t.fibers = s.fibers) (hidle : x.idle = (s.heap f).idle)
    (hcode : b ≠ .idle → x.codeAt x.ctx = s.code f)
    (hturn : b ≠ .idle → ph.turn f (s.heap f) = .none) : t.fifo = s.fifo := by
  have hall := h.code_release hpc hmove hy hheap hnfib hidle hcode
  apply h.fifo_update hmove
  · rw [hy, hfibers, h.queue_eq hmove.live, hpc]
    rfl
  · exact hall
  · rw [hy, h.turn_eq hmove.live, hpc]
    by_cases hb : b = .idle
    · subst hb
      rfl
    · rw [PC.turn_on hb, hturn hb]
      rfl

/-- Every step of the scheduler is what is seen of it, if anything. -/
theorem simulate (h : Lone tid s) {s' : State K} {l : Label K} (hturn : InTurn tid s l)
    (hm : Move P s l s') (hsolo : Solo tid s') :
    (fifo P).exec s.fifo (s.observe l).toList = some s'.fifo := by
  have silent : s.observe l = none → s'.fifo = s.fifo →
      (fifo P).exec s.fifo (s.observe l).toList = some s'.fifo := by
    intro hnone hsame
    rw [hnone, hsame]
    rfl
  have outside : ∀ {a : Act K}, l = .ext a → s.fifo.does a = some s'.fifo →
      (fifo P).exec s.fifo (s.observe l).toList = some s'.fifo := by
    rintro a rfl hdoes
    show ((fifo P).step s.fifo (.outside a)).bind some = _
    rw [Option.bind_fun_some]
    exact hdoes
  -- what may be scheduled waits for it
  have admitted : ∀ {fc : Option (Task K)}, s.Schedulable fc → s.MayQueue fc →
      ∀ f, fc = some (.fiber f) → s.fifo.Waiting f := by
    rintro fc hfc hmay f rfl
    exact h.waiting hfc.1 hfc.2 hmay
  cases hm with
  | fails hf => exact absurd hf h.not_fails
  | owner hown hf =>
    refine silent ?_ (h.fifo_owner hf hsolo)
    rcases hown with ⟨_, rfl⟩ | rfl | rfl <;> rfl
  | @extSchedule fc thread hfc => exact outside rfl (fifo_schedule thread (admitted hfc hturn.2))
  | extNew => exact outside rfl (does_newFiber (fun f hf => h.wf.hand_lt hf) _)
  | prelude hpc => exact silent (by simp [State.observe, hpc]) (h.simulate_prelude hpc)
  | @scanNone w hpc _ =>
    refine silent (by simp [State.observe, hpc])
      (h.fifo_quiet (w := w) ⟨by simp [hpc], rfl, rfl⟩ rfl rfl ?_ ?_ ?_) <;> rw [hpc]
    · exact fun _ _ => rfl
    · rfl
    · rfl
  | @scanSome w e q hpc hq =>
    refine silent (by simp [State.observe, hpc])
      (h.fifo_quiet (w := w) ⟨by simp [hpc], rfl, rfl⟩ rfl rfl ?_ ?_ ?_)
    · rw [hpc]
      exact fun _ _ => rfl
    · -- the head of the queue
      rw [h.scan_head hpc] at hq
      cases hfibers : s.fibers with
      | nil => simp [hfibers] at hq
      | cons a rest =>
        obtain ⟨rfl, rfl⟩ : a = e ∧ rest = q := by simpa [hfibers] using hq
        rw [hpc]
        rfl
    · rw [hpc]
      rfl
  | @checkNone w hpc =>
    refine silent (by simp [State.observe, hpc])
      (h.fifo_quiet (w := w) ⟨by simp [hpc], rfl, rfl⟩ rfl rfl ?_ ?_ ?_) <;> rw [hpc]
    · exact fun _ _ => rfl
    · rfl
    · rfl
  | checkDone hpc hx => exact absurd hx (h.not_checkDone hpc)
  | checkFiber hpc _ => exact h.simulate_checkFiber hpc
  | @checkCb w k hpc =>
    refine silent (by simp [State.observe, hpc])
      (h.fifo_quiet (w := w) ⟨by simp [hpc], rfl, rfl⟩ rfl rfl ?_ ?_ ?_) <;> rw [hpc]
    · exact fun _ _ => rfl
    · rfl
    · rfl
  | prepareOld hpc hcb _ => exact h.simulate_prepareOld hpc hcb
  | prepareNew hpc hcb => exact h.simulate_prepareNew hpc hcb
  | @idleExit w f hpc _ _ =>
    refine silent (by simp [State.observe, hpc])
      (h.fifo_quiet (w := w) ⟨by simp [hpc], rfl, rfl⟩ rfl rfl ?_ ?_ ?_) <;> rw [hpc]
    · exact fun _ _ => rfl
    · rfl
    · rfl
  | @idleEnter w f hpc _ _ =>
    refine silent (by simp [State.observe, hpc])
      (h.fifo_quiet (w := w) ⟨by simp [hpc], rfl, rfl⟩ rfl rfl ?_ ?_ ?_) <;> rw [hpc]
    · intro g x
      by_cases hg : f = g <;> simp [PC.point, Phase.point]
    · rfl
    · rfl
  | fiber hpc hx =>
    refine silent ?_ (h.fifo_fiber hpc hx)
    cases hx <;> simp [State.observe, hpc]
  | @decrement w b f hpc hb =>
    refine silent (by simp [State.observe, hpc])
      (h.fifo_quiet (w := w) ⟨by simp [hpc], rfl, rfl⟩ rfl rfl ?_ ?_ ?_) <;> rw [hpc]
    · intro g x
      by_cases hg : f = g <;> simp [PC.point, Phase.point]
    · rfl
    · cases b <;> rfl
  | requeue hpc => exact h.simulate_requeue hpc
  | @leave w b f hpc hb hx =>
    refine silent (by simp [State.observe, hpc]) ?_
    exact h.fifo_release (x := s.heap f) hpc ⟨by simp [hpc], rfl, rfl⟩ rfl
      (Function.update_eq_self f s.heap).symm rfl rfl rfl (fun hb => (h.code_on hpc hb).symm)
      fun _ => rfl
  | @setHold w b f hpc =>
    refine silent (by simp [State.observe, hpc]) ?_
    exact h.fifo_release hpc ⟨by simp [hpc], rfl, rfl⟩ rfl rfl rfl rfl rfl
      (fun hb => (h.code_on hpc hb).symm) fun _ => rfl
  | @recycle w b f hpc hx =>
    refine silent (by simp [State.observe, hpc]) ?_
    refine h.fifo_release hpc ⟨by simp [hpc], rfl, rfl⟩ rfl rfl rfl rfl rfl
      (fun hb => ?_) fun _ => rfl
    -- it has ended, and ends for good
    obtain ⟨-, hcons, hplaced⟩ := h.on_task hpc hb
    have hctx : (s.heap f).ctx = .done := Fiber.LeftAt.done hplaced.2 hcons.2
    rw [h.code_on hpc hb]
    show none = (s.heap f).codeAt (s.heap f).ctx
    rw [hctx]
    rfl
  | @code w b f c c' a x ph' hpc hc hx hv =>
    by_cases hb : b = .idle
    · subst hb
      exact silent (by simp [State.observe, hpc]) (h.fifo_idle hpc hx.idle_eq)
    · exact h.simulate_code hpc hb hc hx hv rfl
  | @codeSchedule w b f c c' fc thread hpc hc hfc =>
    by_cases hb : b = .idle
    · subst hb
      rcases h.idle_acts hpc hc with ha | ⟨v, ha⟩ | ha <;> cases ha
    · apply h.simulate_act hpc hb
      rw [Fifo.actStep, hc]
      show (s.fifo.setCode f (some c')).does (.schedule fc thread) = _
      rw [← h.fifo_goOn hpc hb]
      apply fifo_schedule (s := s.setPC w (.on b f (.inside (.body c')))) thread
      intro g hg
      rw [h.fifo_goOn hpc hb]
      exact waiting_setCode (admitted hfc hturn.2 g hg)
  | @codeNew w b f c c' k hpc hc =>
    by_cases hb : b = .idle
    · subst hb
      rcases h.idle_acts hpc hc with ha | ⟨v, ha⟩ | ha <;> cases ha
    · apply h.simulate_act hpc hb
      rw [Fifo.actStep, hc]
      show (s.fifo.setCode f (some c')).does (.newFiber k s.nfib) = _
      rw [← h.fifo_goOn hpc hb]
      apply does_newFiber (s := s.setPC w (.on b f (.inside (.body c')))) _ k
      intro g hg
      have hmove : State.WorkerMoves s (s.setPC w (.on b f (.inside (.body c')))) w
          { s.workers w with pc := .on b f (.inside (.body c')) } := ⟨by simp [hpc], rfl, rfl⟩
      rw [(h.last_move hmove).2] at hg
      rw [eq_of_hand g hg]
      exact (h.wf.on_lt hpc).1

/-! ### The invariant -/

/-- The fiber in hand is not kept for a callback, unless it runs one. -/
theorem cb_ne_hand (h : Lone tid s) {w f g : Nat} {b : Branch} {ph : Phase K}
    (hpc : (s.workers w).pc = .on b f ph) (hb : b ≠ .cb) (hg : (s.workers w).cbFiber = some g) :
    g ≠ f := by
  rintro rfl
  cases b with
  | task => exact h.cb.loose w g (by rw [hpc]; rfl) hg
  | cb => exact hb rfl
  | idle =>
    have hkind := (h.wf.on_lt hpc).2.mpr rfl
    rw [((h.wf.worker w).cb g hg).2] at hkind
    cases hkind

section keep
variable {t : State K} {w : Nat} {y : Worker K}

/-- There is no other worker. -/
theorem cbKept_move (h : Lone tid s) (hmove : State.WorkerMoves s t w y)
    (hspare : y.pc ≠ .exited → ∀ f, y.cbFiber = some f → y.pc.hand ≠ some f →
      (t.heap f).Recycled)
    (hloose : ∀ f, y.pc.loose = some f → y.cbFiber ≠ some f) : CbKept t := by
  have hself : t.workers w = y := by rw [hmove.workers, Function.update_self]
  refine ⟨fun v f hv hcb hhand => ?_, fun v f hv => ?_⟩
  · by_cases hvw : v = w
    · rw [hvw, hself] at hv hcb hhand
      exact hspare hv f hcb hhand
    · rw [hmove.workers, Function.update_of_ne hvw] at hv
      have hlast := h.solo.single.eq_last h.wf hv
      have hlast' := h.solo.single.eq_last h.wf hmove.live
      omega
  · by_cases hvw : v = w
    · rw [hvw, hself] at hv ⊢
      exact hloose f hv
    · have hother : t.workers v = s.workers v := by rw [hmove.workers, Function.update_of_ne hvw]
      rw [hother] at hv ⊢
      exact h.cb.loose v f hv

/-- The worker keeps its `cb_fiber`, and what it has in hand or less. -/
theorem cbKept_keep (h : Lone tid s) (hmove : State.WorkerMoves s t w y)
    (hcb : y.cbFiber = (s.workers w).cbFiber)
    (hhand : ∀ f, y.pc.hand ≠ some f → (s.workers w).cbFiber = some f →
      (s.workers w).pc.hand ≠ some f)
    (hheap : ∀ f, (s.workers w).pc.hand ≠ some f → f < s.nfib → t.heap f = s.heap f)
    (hloose : ∀ f, y.pc.loose = some f → (s.workers w).pc.loose = some f) : CbKept t := by
  -- not in hand now, so not in hand before, and nothing else changes
  refine h.cbKept_move hmove (fun _ f hf hnot => ?_) fun f hf => ?_
  · rw [hcb] at hf
    have hbefore := hhand f hnot hf
    rw [hheap f hbefore ((h.wf.worker w).cb f hf).1]
    exact h.cb.spare w f hmove.live hf hbefore
  · rw [hcb]
    exact h.cb.loose w f (hloose f hf)

end keep

/-- A step of the fiber in hand that touches no other. -/
theorem cbKept_on (h : Lone tid s) {t : State K} {w f : Nat} {b : Branch} {ph ph' : Phase K}
    (hpc : (s.workers w).pc = .on b f ph)
    (hmove : State.WorkerMoves s t w { s.workers w with pc := .on b f ph' })
    (hheap : ∀ g, g ≠ f → g < s.nfib → t.heap g = s.heap g) : CbKept t := by
  apply h.cbKept_keep hmove rfl
  · intro g hnot _
    rw [hpc]
    exact hnot
  · intro g hg hlt
    apply hheap g _ hlt
    rintro rfl
    rw [hpc] at hg
    exact hg rfl
  · intro g hg
    rw [hpc]
    cases b <;> exact hg

/-- `cb_fiber` is empty of code between two callbacks, after every step. -/
theorem cbKept (h : Lone tid s) {s' : State K} {l : Label K} (hm : Move P s l s') : CbKept s' := by
  have alloc : ∀ (x : Fiber K) g, g < s.nfib → (s.alloc x).heap g = s.heap g :=
    fun x g hg => s.alloc_ne g x (Nat.ne_of_lt hg)
  -- between fibers
  have rest : ∀ {t : State K} {w : Nat} {pc : PC K},
      State.WorkerMoves s t w { s.workers w with pc := pc } → t.heap = s.heap →
      (s.workers w).pc.hand = none →
        (∀ f, pc.loose = some f → (s.workers w).cbFiber ≠ some f) →
      CbKept t := by
    intro t w pc hmove hheap hnone hloose
    refine h.cbKept_move hmove (fun _ f hf _ => ?_) hloose
    rw [hheap]
    exact h.cb.spare w f hmove.live hf (by simp [hnone])
  -- the bookkeeping is over
  have release : ∀ {t : State K} {w f : Nat} {b : Branch} {ph : Phase K},
      (s.workers w).pc = .on b f ph →
      State.WorkerMoves s t w { s.workers w with
        pc := .scan, cbFiber := if b = .cb then none else (s.workers w).cbFiber } →
      (∀ g, g ≠ f → t.heap g = s.heap g) → CbKept t := by
    intro t w f b ph hpc hmove hheap
    refine h.cbKept_move hmove (fun _ g hg _ => ?_) fun _ hf => by cases hf
    have hg : (if b = .cb then none else (s.workers w).cbFiber) = some g := hg
    have hold := cbFiber_of_dropped hg
    have hb : b ≠ .cb := by
      rintro rfl
      cases hg
    have hne := h.cb_ne_hand hpc hb hold
    rw [hheap g hne]
    apply h.cb.spare w g hmove.live hold
    rw [hpc]
    exact fun heq => hne (eq_of_hand g heq)
  cases hm with
  | fails hf => exact absurd hf h.not_fails
  | owner _ hf =>
    refine ⟨fun v f hv hcb hhand => ?_, fun v f hv hcb => ?_⟩
    · rw [hf.heap]
      rcases hf.worker v with hsame | ⟨-, tid', hfresh⟩
      · rw [hsame] at hv hcb hhand
        exact h.cb.spare v f hv hcb hhand
      · rw [hfresh] at hcb
        cases hcb
    · rcases hf.worker v with hsame | ⟨-, tid', hfresh⟩
      · rw [hsame] at hv hcb
        exact h.cb.loose v f hv hcb
      · rw [hfresh] at hcb
        cases hcb
  | extSchedule _ => exact ⟨h.cb.spare, h.cb.loose⟩
  | extNew =>
    refine ⟨fun v f hv hcb hhand => ?_, h.cb.loose⟩
    rw [alloc _ f ((h.wf.worker v).cb f hcb).1]
    exact h.cb.spare v f hv hcb hhand
  | @prelude w hpc =>
    have hmove : State.WorkerMoves s ((s.alloc (.new P.idle true)).setWorker w
        { s.workers w with pc := .scan, idleFiber := some s.nfib }) w
        { s.workers w with pc := .scan, idleFiber := some s.nfib } := ⟨by simp [hpc], rfl, rfl⟩
    refine h.cbKept_keep hmove rfl ?_ ?_ fun _ hf => by cases hf
    · simp [hpc, PC.hand]
    · exact fun f _ hlt => alloc _ f hlt
  | @scanNone w hpc _ =>
    exact rest ⟨by simp [hpc], rfl, rfl⟩ rfl (by rw [hpc]; rfl) fun _ hf => by cases hf
  | @scanSome w e q hpc hq =>
    refine rest ⟨by simp [hpc], rfl, rfl⟩ rfl (by rw [hpc]; rfl) fun f hf hcb => ?_
    -- what is queued can go on, what is kept for a callback cannot
    have hw : (s.workers w).pc ≠ .exited := by simp [hpc]
    have htask : e.task = .fiber f := by
      have hhand := PC.hand_of_loose hf
      cases ht : e.task with
      | fiber g =>
        rw [ht] at hhand
        cases hhand
        rfl
      | cb k =>
        rw [ht] at hhand
        cases hhand
    obtain ⟨pre, post, hfib, -⟩ := scanQueue_some hq
    have hqueued : .fiber f ∈ s.fifo.queue := by
      apply List.mem_append_right
      exact List.mem_map.mpr ⟨e, by simp [hfib], htask⟩
    have hsome := h.queued_code hqueued
    obtain ⟨-, hctx, hnil⟩ := h.cb.spare w f hw hcb (by simp [hpc, PC.hand])
    obtain ⟨hlt, hidle⟩ := (h.wf.worker w).cb f hcb
    rw [code_rest hlt hidle (by simp [h.last_eq hw, hpc, PC.hand]), hctx] at hsome
    have hsome : (s.heap f).cb.isSome := hsome
    rw [hnil] at hsome
    cases hsome
  | @checkNone w hpc =>
    exact rest ⟨by simp [hpc], rfl, rfl⟩ rfl (by rw [hpc]; rfl) fun _ hf => by cases hf
  | checkDone hpc hx => exact absurd hx (h.not_checkDone hpc)
  | @checkFiber w f hpc _ =>
    have hmove : State.WorkerMoves s (s.setPC w (.on .task f .assertNotExec)) w
        { s.workers w with pc := .on .task f .assertNotExec } := ⟨by simp [hpc], rfl, rfl⟩
    apply h.cbKept_keep hmove rfl
    · intro g hnot _
      rw [hpc]
      exact hnot
    · exact fun _ _ _ => rfl
    · intro g hg
      rw [hpc]
      exact hg
  | @checkCb w k hpc =>
    exact rest ⟨by simp [hpc], rfl, rfl⟩ rfl (by rw [hpc]; rfl) fun _ hf => by cases hf
  | @prepareOld w k g hpc hg _ =>
    have hmove : State.WorkerMoves s
        ((s.setFiber g ((s.heap g).reset (some (.user k)))).setPC w (.on .cb g .assertNotExec)) w
        { s.workers w with pc := .on .cb g .assertNotExec } := ⟨by simp [hpc], rfl, rfl⟩
    refine h.cbKept_move hmove (fun _ f hf hnot => ?_) fun _ hf => by cases hf
    have hf : (s.workers w).cbFiber = some f := hf
    rw [hg] at hf
    exact absurd hf hnot
  | @prepareNew w k hpc _ =>
    have hmove : State.WorkerMoves s ((s.alloc (.new (.user k) false)).setWorker w
        { s.workers w with pc := .on .cb s.nfib .assertNotExec, cbFiber := some s.nfib }) w
        { s.workers w with pc := .on .cb s.nfib .assertNotExec, cbFiber := some s.nfib } :=
      ⟨by simp [hpc], rfl, rfl⟩
    exact h.cbKept_move hmove (fun _ f hf hnot => absurd hf hnot) fun _ hf => by cases hf
  | @idleExit w f hpc _ _ =>
    exact rest ⟨by simp [hpc], rfl, rfl⟩ rfl (by rw [hpc]; rfl) fun _ hf => by cases hf
  | @idleEnter w f hpc _ _ =>
    exact rest ⟨by simp [hpc], rfl, rfl⟩ rfl (by rw [hpc]; rfl) fun _ hf => by cases hf
  | @fiber w b f ph x ph' hpc _ =>
    exact h.cbKept_on hpc ⟨by simp [hpc], rfl, rfl⟩ fun g hg _ => s.setFiber_ne f g x hg
  | @decrement w b f hpc _ => exact h.cbKept_on hpc ⟨by simp [hpc], rfl, rfl⟩ fun _ _ _ => rfl
  | @requeue w b f hpc => exact release hpc ⟨by simp [hpc], rfl, rfl⟩ fun _ _ => rfl
  | @leave w b f hpc hb _ =>
    refine release hpc ⟨by simp [hpc], ?_, rfl⟩ fun _ _ => rfl
    rw [if_neg hb]
    rfl
  | @setHold w b f hpc =>
    exact release hpc ⟨by simp [hpc], rfl, rfl⟩ fun g hg => s.setFiber_ne f g _ hg
  | @recycle w b f hpc _ =>
    have hmove : State.WorkerMoves s ((s.setFiber f ((s.heap f).reset none)).setPC w .scan) w
        { s.workers w with pc := .scan } := ⟨by simp [hpc], rfl, rfl⟩
    refine h.cbKept_move hmove (fun _ g hg _ => ?_) fun _ hf => by cases hf
    -- only the callback branch recycles, and what it recycles is its `cb_fiber`
    obtain rfl : b = .cb := (h.wf.worker w).fits b f _ hpc
    have hg : (s.workers w).cbFiber = some g := hg
    rw [(h.wf.worker w).cbBranch f _ hpc] at hg
    cases hg
    show ((s.setFiber f ((s.heap f).reset none)).heap f).Recycled
    rw [s.setFiber_self]
    exact ⟨rfl, rfl, rfl⟩
  | @code w b f c c' a x ph' hpc _ _ _ =>
    exact h.cbKept_on hpc ⟨by simp [hpc], rfl, rfl⟩ fun g hg _ => s.setFiber_ne f g x hg
  | @codeSchedule w b f c c' fc thread hpc _ _ =>
    exact h.cbKept_on hpc ⟨by simp [hpc], rfl, rfl⟩ fun _ _ _ => rfl
  | @codeNew w b f c c' k hpc _ =>
    exact h.cbKept_on hpc ⟨by simp [hpc], rfl, rfl⟩ fun g _ hlt => alloc _ g hlt

/-- What is queued is for the worker. -/
theorem threads (h : Lone tid s) {s' : State K} {l : Label K} (hturn : InTurn tid s l)
    (hm : Move P s l s') : ∀ e ∈ s'.fibers, e.thread = -1 ∨ e.thread = tid := by
  have push : ∀ {fc : Option (Task K)} {thread : Int}, (thread = -1 ∨ thread = tid) →
      ∀ e ∈ scheduleNoLock s.fibers fc thread, e.thread = -1 ∨ e.thread = tid := by
    intro fc thread hthread e he
    rcases mem_scheduleNoLock.mp he with he | ⟨t, -, rfl⟩
    · exact h.thread e he
    · exact hthread
  cases hm with
  | owner _ hf =>
    rw [hf.fibers]
    exact h.thread
  | extSchedule _ => exact push hturn.1
  | codeSchedule _ _ _ => exact push hturn.1
  | @requeue w b f _ => exact @push (some (.fiber f)) (-1) (.inl rfl)
  | @scanSome w e q _ hq =>
    obtain ⟨pre, post, hfib, rfl, -⟩ := scanQueue_some hq
    intro x hx
    apply h.thread x
    rw [hfib]
    rcases List.mem_append.mp hx with hx | hx
    · exact List.mem_append_left _ hx
    · exact List.mem_append_right _ (List.mem_cons_of_mem _ hx)
  | _ => exact h.thread

/-- `m_activeThreadCount` covers the workers in a segment, also where it is not exact. -/
theorem active_step (h : Lone tid s) {s' : State K} {l : Label K} (hstep : step P s l = some s') :
    busyCount s' ≤ s'.activeThreadCount := by
  have hle := h.active
  -- the count is only ever too high, after a finished fiber was taken
  by_cases hl : DequeuedFinished s l
  · have hlost := step_active_lost h.wf hstep hl
    omega
  · have hmove := (step_move hstep).2.active h.wf hle hl
    omega

/-- The invariant and the simulation hand in hand: what is seen to be sound before the
    step excludes its failures, and the step seen by the machine is sound again. -/
theorem step (h : Lone tid s) (hP : P.idle = .idleTest) {s' : State K} {l : Label K}
    (hturn : InTurn tid s l) (hstep : Scheduler.step P s l = some s') :
    Lone tid s' ∧ (fifo P).exec s.fifo (s.observe l).toList = some s'.fifo := by
  have hm := (step_move hstep).2
  have hsolo := h.solo.step h.wf hturn hstep
  have hsim := h.simulate hturn hm hsolo
  refine ⟨⟨h.wf.move hm, hsolo, ?_, ?_, h.active_step hstep, h.threads hturn hm,
    h.cbKept hm, ?_⟩, hsim⟩
  -- a lone worker takes what is free and what can go on, as the placement asks
  · exact Owned.move h.owned (local_placed P) h.wf (fun _ => h.solo.single.takesFree h.wf l)
      (fun _ => h.takesRipe l) (keeps_true s l) hm
  · have hidle := h.idle.step hP h.wf hstep
    simpa [answer] using hidle
  · exact h.sound.exec hsim

end Lone

/-- A scheduler that has not been started is seen as the empty machine. -/
theorem fifo_initial (useCaller : Bool) (tid : Int) :
    (State.initial 1 useCaller tid : State K).fifo = .initial := by
  apply State.fifo_eq
  · rfl
  · intro f
    exact Lone.code_new (Nat.zero_le f)
  · rfl

/-- The invariant at the start, from those of its parts. -/
theorem lone_initial (useCaller : Bool) (tid : Int) :
    Lone tid (.initial 1 useCaller tid : State K) where
  wf := wellFormed_initial 1 useCaller tid
  solo := solo_initial useCaller tid
  owned := Owned.initial 1 useCaller tid
  idle := Owned.initial 1 useCaller tid
  active := Nat.le_refl _
  thread e he := by cases he
  cb := ⟨fun w f h => absurd rfl h, fun w f h => by cases h⟩
  sound := by
    rw [fifo_initial]
    exact Fifo.sound_initial

/-- The runs of a scheduler with one worker whose tasks are scheduled in turn. -/
def oneWorker (P : Prog K) (useCaller : Bool) (tid : Int) : System (State K) (Label K) :=
  (scheduler P 1 useCaller tid).restrict (InTurn tid)

/-- With one worker the scheduler refines the machine. -/
theorem oneWorker_refines (hP : P.idle = .idleTest) (useCaller : Bool) (tid : Int) :
    System.Refines (oneWorker P useCaller tid) (fifo P) State.observe State.fifo (Lone tid) where
  init := fifo_initial useCaller tid
  invariant := lone_initial useCaller tid
  step s l s' h hstep := by
    obtain ⟨hturn, hstep⟩ := System.restrict_step.mp hstep
    exact h.step hP hturn hstep

end Gwn.Scheduler
