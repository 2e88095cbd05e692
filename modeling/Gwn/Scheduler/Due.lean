import Gwn.Scheduler.Current
import Gwn.Scheduler.Flawless
import Mathlib.Algebra.GroupWithZero.Nat

/-! # What is left to do

    If no callback leads to an endless chain of further ones, what the callbacks in the
    queue and in the workers' hands have left to do, together with the bookkeeping that
    goes with it, can be counted (`State.due`). Once `stop` has been called the count
    never grows: it falls with every step of a worker that has a task in hand and when
    one is taken from the queue, and idle workers leave it alone (`Flawless.countsDown`). -/

namespace Gwn.Scheduler

open LTS

variable {C : Type}

/-! ### The size of callbacks -/

/-- Callback `c` schedules `c'`. -/
def Spawns (prog : C → Body C) (c' c : C) : Prop :=
  .schedule c' ∈ (prog c).script

/-- An event, and what comes of it. -/
def Ev.size (size : C → Nat) : Ev C → Nat
  | .schedule c => size c + 1
  | _ => 1

/-- The same for a list of events. -/
def eventsSize (size : C → Nat) (es : List (Ev C)) : Nat :=
  (es.map (Ev.size size)).sum

/-- `size c` counts the events of callback `c` and of all callbacks it leads to. -/
def Sizes (prog : C → Body C) (size : C → Nat) : Prop :=
  ∀ c, size c = eventsSize size (prog c).script

/-- Where no chain of callbacks is endless there are sizes, by recursion along the chains. -/
theorem exists_sizes {prog : C → Body C} (hwf : WellFounded (Spawns prog)) :
    ∃ size, Sizes prog size := by
  let step (c : C) (size : ∀ c', Spawns prog c' c → Nat) :
      { e // e ∈ (prog c).script } → Nat
    | ⟨.schedule c', h⟩ => size c' h + 1
    | _ => 1
  refine ⟨hwf.fix fun c size => ((prog c).script.attach.map (step c size)).sum, fun c => ?_⟩
  rw [WellFounded.fix_eq]
  refine congrArg List.sum (Eq.trans ?_ List.attach_map_val)
  apply List.map_congr_left
  rintro ⟨e, he⟩ _
  cases e <;> rfl

@[simp] theorem eventsSize_cons (size : C → Nat) (e : Ev C) (es : List (Ev C)) :
    eventsSize size (e :: es) = e.size size + eventsSize size es := by
  simp [eventsSize]

/-! ### The count -/

/-- What the fiber has left when it goes on at this point. One more is for the call of its
    callback. -/
def Fiber.load (size : C → Nat) (x : Fiber (Cont C)) : Point (Cont C) → Nat
  | .entry =>
    match x.cb with
    | some (.user k) => eventsSize size (.started :: k.rest)
    | _ => 1
  | .body (.user k) => eventsSize size k.rest
  | _ => 0

/-- What an entry has left: a fiber from where it is saved, a callback all of it. -/
def Task.load (size : C → Nat) (heap : Nat → Fiber (Cont C)) : Task (Cont C) → Nat
  | .fiber f => (heap f).load size (heap f).ctx
  | .cb k => eventsSize size (.started :: k.rest)

/-- The bookkeeping from here to the next event, or to the queue. -/
def Phase.due {K : Type} : Phase K → Nat
  | .yielding _ _ => 20
  | .switchOut _ => 19
  | .returned => 18
  | .testReady => 17
  | .testDone | .requeue => 16
  | .setHold | .recycle => 15
  | .assertNotExec => 7
  | .setExec => 6
  | .switchIn => 5
  | .inside _ => 4

/-- What a worker has in hand, and its way to the next event. An idle fiber has nothing to do. -/
def PC.due (size : C → Nat) (heap : Nat → Fiber (Cont C)) : PC (Cont C) → Nat
  | .check (some t) => 32 * t.load size heap + 9
  | .prepare k => 32 * (Task.cb k).load size heap + 8
  | .on .idle _ _ => 0
  | .on _ f ph => 32 * (heap f).load size (ph.point (heap f)) + ph.due
  | _ => 0

/-- For an entry of the queue. -/
def Task.due (size : C → Nat) (heap : Nat → Fiber (Cont C)) (t : Task (Cont C)) : Nat :=
  32 * t.load size heap + 10

/-- All entries of the queue, -/
def State.queueDue (size : C → Nat) (s : State (Cont C)) : Nat :=
  (s.fibers.map fun e => e.task.due size s.heap).sum

/-- and what the workers have in hand. -/
def State.due (size : C → Nat) (s : State (Cont C)) : Nat :=
  s.queueDue size + total (fun x => x.pc.due size s.heap) s.workers s.nworkers

/-- The worker has a task in hand. -/
def PC.atTask {K : Type} : PC K → Bool
  | .check (some _) | .prepare _ | .on .task _ _ | .on .cb _ _ => true
  | _ => false

variable {size : C → Nat} {heap heap' : Nat → Fiber (Cont C)}

/-- In the branches of tasks and callbacks, -/
theorem PC.due_on {b : Branch} {f : Nat} {ph : Phase (Cont C)} (hb : b ≠ .idle) :
    (PC.on b f ph).due size heap = 32 * (heap f).load size (ph.point (heap f)) + ph.due := by
  cases b with
  | idle => exact absurd rfl hb
  | _ => rfl

/-- which are those with a task in hand. -/
theorem PC.atTask_on {K : Type} {b : Branch} {f : Nat} {ph : Phase K} (hb : b ≠ .idle) :
    (PC.on b f ph).atTask = true := by
  cases b with
  | idle => exact absurd rfl hb
  | _ => rfl

/-- Without a task in hand nothing is due. -/
theorem PC.due_rest {pc : PC (Cont C)} (h : pc.atTask = false) : pc.due size heap = 0 := by
  cases pc with
  | check ft =>
    cases ft with
    | none => rfl
    | some t => cases h
  | on b f ph =>
    cases b with
    | idle => rfl
    | _ => cases h
  | prepare k => cases h
  | _ => rfl

/-- The count for an entry depends on its fiber only, -/
theorem Task.load_congr {t : Task (Cont C)} (h : ∀ f, t = .fiber f → heap' f = heap f) :
    t.load size heap' = t.load size heap := by
  cases t with
  | cb k => rfl
  | fiber f =>
    show (heap' f).load size (heap' f).ctx = (heap f).load size (heap f).ctx
    rw [h f rfl]

/-- The count for a worker depends on the fiber in its hand only. -/
theorem PC.due_congr {pc : PC (Cont C)} (h : ∀ f, pc.hand = some f → heap' f = heap f) :
    pc.due size heap' = pc.due size heap := by
  cases pc with
  | check ft =>
    cases ft with
    | none => rfl
    | some t =>
      have hload : t.load size heap' = t.load size heap := by
        apply Task.load_congr
        rintro f rfl
        exact h f rfl
      show 32 * t.load size heap' + 9 = 32 * t.load size heap + 9
      rw [hload]
  | on b f ph =>
    have hf := h f rfl
    cases b <;> simp [PC.due, hf]
  | _ => rfl

/-- and that for the queue on the fibers in it. -/
theorem queueDue_congr {s t : State (Cont C)} (hq : t.fibers = s.fibers)
    (h : ∀ e ∈ s.fibers, ∀ f, e.task = .fiber f → t.heap f = s.heap f) :
    t.queueDue size = s.queueDue size := by
  unfold State.queueDue
  rw [hq]
  congr 1
  apply List.map_congr_left
  intro e he
  show 32 * _ + 10 = 32 * _ + 10
  rw [Task.load_congr (h e he)]

/-- A task joins the queue. -/
theorem queueDue_append {s t : State (Cont C)} {e : FiberAndThread (Cont C)}
    (hfibers : t.fibers = s.fibers ++ [e]) (hheap : t.heap = s.heap) :
    t.queueDue size = s.queueDue size + e.task.due size s.heap := by
  simp [State.queueDue, hfibers, hheap]

/-! ### The callbacks in a place -/

/-- The tags of the callbacks in an entry, -/
def Task.tags (heap : Nat → Fiber (Cont C)) (t : Task (Cont C)) : Multiset Nat :=
  (t.job heap).map Job.tag

/-- and in the hand of a worker. -/
def PC.tags (heap : Nat → Fiber (Cont C)) (pc : PC (Cont C)) : Multiset Nat :=
  (pc.job heap).map Job.tag

/-- No callback is in hand where no task is. -/
theorem PC.job_rest {pc : PC (Cont C)} (h : pc.atTask = false) : pc.job heap = 0 := by
  cases pc with
  | check ft =>
    cases ft with
    | none => rfl
    | some t => cases h
  | on b f ph =>
    cases b with
    | idle => rfl
    | _ => cases h
  | prepare k => cases h
  | _ => rfl

theorem PC.tags_rest {pc : PC (Cont C)} (h : pc.atTask = false) : pc.tags heap = 0 := by
  rw [tags, job_rest h, Multiset.map_zero]

/-- The tag of the fiber in hand. -/
theorem PC.tags_on {b : Branch} {f : Nat} {ph : Phase (Cont C)} (hb : b ≠ .idle) :
    (PC.on b f ph).tags heap = ((heap f).job (ph.point (heap f))).map Job.tag := by
  rw [tags, job_on hb]

/-! ### One step -/

/-- On the way through `swapIn` and the bookkeeping the count falls. -/
theorem FiberMove.due {b : Branch} {x x' : Fiber (Cont C)} {ph ph' : Phase (Cont C)}
    (hm : FiberMove b x ph x' ph') (hb : b ≠ .idle) :
    32 * x'.load size (ph'.point x') + ph'.due < 32 * x.load size (ph.point x) + ph.due := by
  have hstate : ∀ (p : Point (Cont C)) (st : FiberState),
      ({ x with state := st } : Fiber (Cont C)).load size p
      = x.load size p := by
    intro p st
    cases p <;> rfl
  cases hm with
  | call c hc =>
    show 32 * x.load size (.body c) + 4 < 32 * x.load size .entry + 4
    cases c with
    | user k => simp [Fiber.load, hc, Ev.size]
    | _ => simp [Fiber.load, hc]
  | callEmpty hc =>
    show 32 * 0 + 19 < 32 * x.load size .entry + 4
    simp [Fiber.load, hc]
  | setExec =>
    show 32 * Fiber.load size { x with state := .exec } x.ctx + 5 < 32 * x.load size x.ctx + 6
    rw [hstate]
    omega
  | yield st c =>
    show 32 * Fiber.load size { x with state := st } (.body c) + 19
        < 32 * x.load size (.body c) + 20
    rw [hstate]
    omega
  | switchIn =>
    have hload : ∀ p, Fiber.load size { x with saved := false } p = x.load size p := by
      intro p
      cases p <;> rfl
    show 32 * Fiber.load size { x with saved := false } x.ctx + 4 < 32 * x.load size x.ctx + 5
    rw [hload]
    omega
  | save p =>
    have hload : Fiber.load size { x with ctx := p, saved := true } p = x.load size p := by
      cases p <;> rfl
    show 32 * Fiber.load size { x with ctx := p, saved := true } p + 18 < 32 * x.load size p + 19
    rw [hload]
    omega
  | back hidle => exact absurd hidle hb
  | assertNotExec _ => exact Nat.lt_succ_self (32 * x.load size x.ctx + 6)
  | isReady _ => exact Nat.lt_succ_self (32 * x.load size x.ctx + 16)
  | notReady _ => exact Nat.lt_succ_self (32 * x.load size x.ctx + 16)
  | notDone _ => exact Nat.lt_succ_self (32 * x.load size x.ctx + 15)
  | isDone _ _ => exact Nat.lt_succ_self (32 * x.load size x.ctx + 15)

/-- The callback stays the same. -/
theorem FiberMove.tags {b : Branch} {x x' : Fiber (Cont C)} {ph ph' : Phase (Cont C)}
    (hm : FiberMove b x ph x' ph') :
    (x'.job (ph'.point x')).map Job.tag ⊆ (x.job (ph.point x)).map Job.tag := by
  cases hm with
  | call c hc =>
    show (x.job (.body c)).map Job.tag ⊆ (x.job .entry).map Job.tag
    cases c with
    | user k => simp [Fiber.job, hc]
    | _ => exact Multiset.zero_subset _
  | callEmpty _ => exact Multiset.zero_subset _
  | save p => cases p <;> exact Multiset.Subset.refl _
  | yield st c => cases c <;> exact Multiset.Subset.refl _
  | setExec =>
    have hjob : ∀ p, Fiber.job { x with state := .exec } p = x.job p :=
      fun p => by cases p <;> rfl
    show (Fiber.job { x with state := .exec } x.ctx).map Job.tag ⊆ (x.job x.ctx).map Job.tag
    rw [hjob]
    exact Multiset.Subset.refl _
  | switchIn =>
    have hjob : ∀ p, Fiber.job { x with saved := false } p = x.job p :=
      fun p => by cases p <;> rfl
    show (Fiber.job { x with saved := false } x.ctx).map Job.tag ⊆ (x.job x.ctx).map Job.tag
    rw [hjob]
    exact Multiset.Subset.refl _
  | _ => exact Multiset.Subset.refl _

/-- What worker `w` does to the queue and to the task in its hand with the step `l`. -/
inductive TaskMove (prog : C → Body C) (size : C → Nat) (s t : State (Cont C))
    (l : Label (Cont C)) (w : Nat) : Prop where
  /-- It has no task in hand, neither before nor after. -/
  | rests (hfibers : t.fibers = s.fibers) (hrest : (s.workers w).pc.atTask = false)
    (hrest' : (t.workers w).pc.atTask = false)
  /-- It goes on with its task, or is through with it. -/
  | works (hfibers : t.fibers = s.fibers)
    (hdown : (t.workers w).pc.due size t.heap < (s.workers w).pc.due size s.heap)
    (hnext : (t.workers w).pc.atTask = true ∨ (t.workers w).pc = .scan)
    (htags : (t.workers w).pc.tags t.heap ⊆ (s.workers w).pc.tags s.heap)
  /-- It takes the first task of the queue. -/
  | takes (e : FiberAndThread (Cont C)) (hfibers : s.fibers = e :: t.fibers)
      (hheap : t.heap = s.heap)
    (hpc : (s.workers w).pc = .scan) (hpc' : (t.workers w).pc = .check (some e.task))
  /-- It puts its task back. -/
  | requeues (e : FiberAndThread (Cont C)) (hfibers : t.fibers = s.fibers ++ [e])
      (hheap : t.heap = s.heap)
    (hdown : e.task.due size s.heap < (s.workers w).pc.due size s.heap)
    (htags : e.task.tags s.heap ⊆ (s.workers w).pc.tags s.heap) (hpc' : (t.workers w).pc = .scan)
  /-- Its task schedules a callback. -/
  | schedules (tag : Nat) (d : C)
      (hl : l = .act w (.schedule (some (.cb (.start prog tag d))) (-1)))
    (hfibers : t.fibers = s.fibers ++ [⟨.cb (.start prog tag d), -1⟩]) (hheap : t.heap = s.heap)
    (hdue : (s.workers w).pc.due size s.heap = (t.workers w).pc.due size t.heap + 32 * (size d + 1))
    (hnext : (t.workers w).pc.atTask = true)
    (htags : (t.workers w).pc.tags t.heap ⊆ (s.workers w).pc.tags s.heap)

/-- Only worker `w` moves, and no fiber changes that is queued, in another hand, or the idle
    fiber of another worker. -/
structure WorkerStep (s t : State (Cont C)) (w : Nat) : Prop where
  lt : w < s.nworkers
  nworkers : t.nworkers = s.nworkers
  others : ∀ v, v ≠ w → t.workers v = s.workers v
  heap : ∀ v, v ≠ w → ∀ f, (s.workers v).pc.hand = some f ∨
    (s.workers v).idleFiber = some f →
    t.heap f = s.heap f
  queue : ∀ e ∈ s.fibers, ∀ f, e.task = .fiber f → t.heap f = s.heap f

section steps
variable {prog : C → Body C} {s t : State (Cont C)} {owner : Nat → Option Nat} {w f : Nat}
  {y : Worker (Cont C)}

/-- The idle fibers of the other workers. -/
theorem Employing.idle_ne_hand (h : Employing s owner)
    (hf : (s.workers w).pc.hand = some f) (v : Nat)
    (hv : v ≠ w) : (s.workers v).idleFiber ≠ some f := by
  intro hidle
  have hk : (s.heap f).idle = true := ((h.wf.worker v).idle f hidle).2
  have hw := h.wf.worker w
  cases hpc : (s.workers w).pc with
  | check ft =>
    rw [hpc] at hf
    match ft, hf with
    | some (.fiber g), hf =>
      cases hf
      rw [(hw.check f hpc).2] at hk
      cases hk
  | on b g ph =>
    rw [hpc] at hf
    cases hf
    have hb : b = .idle := (h.wf.on_lt hpc).2.mp hk
    subst hb
    exact hv (h.wf.idle_inj v w f hidle (hw.idleBranch f ph hpc))
  | _ =>
    rw [hpc] at hf
    cases hf

/-- An idle fiber is none that is still to be made, -/
theorem Employing.idle_ne_new (h : Employing s owner) (v : Nat) :
    (s.workers v).idleFiber ≠ some s.nfib :=
  fun hidle => Nat.lt_irrefl _ ((h.wf.worker v).idle _ hidle).1

/-- and none that is kept for callbacks. -/
theorem Employing.idle_ne_cbFiber (h : Employing s owner)
    (hf : (s.workers w).cbFiber = some f) (v : Nat) :
    (s.workers v).idleFiber ≠ some f := by
  intro hidle
  have hk := ((h.wf.worker v).idle f hidle).2
  rw [((h.wf.worker w).cb f hf).2] at hk
  cases hk

/-- At most fiber `f` changes. -/
theorem Employing.workerStep (h : Employing s owner) (hw : (s.workers w).pc ≠ .exited)
    (hf : s.Apart w f) (hidle : ∀ v, v ≠ w → (s.workers v).idleFiber ≠ some f)
    (hheap : ∀ g, g ≠ f → t.heap g = s.heap g) (hn : t.nworkers = s.nworkers)
    (hworkers : t.workers = Function.update s.workers w y) : WorkerStep s t w where
  lt := h.wf.lt_nworkers hw
  nworkers := hn
  others v hv := by rw [hworkers, Function.update_of_ne hv]
  heap v hv g hg := hheap g fun heq => by
    rcases hg with hg | hg
    · exact hf.hand v hv (heq ▸ hg)
    · exact hidle v hv (heq ▸ hg)
  queue e he g hg := hheap g fun heq => hf.queue e he (heq ▸ hg)

/-- No fiber changes. -/
theorem Employing.workerStep_same (h : Employing s owner) (hw : (s.workers w).pc ≠ .exited)
    (hheap : t.heap = s.heap) (hn : t.nworkers = s.nworkers)
    (hworkers : t.workers = Function.update s.workers w y) : WorkerStep s t w :=
  h.workerStep hw (h.apart_new w) (fun v _ => h.idle_ne_new v)
    (fun g _ => by rw [hheap]) hn hworkers

/-- At most the fiber in hand changes. -/
theorem Employing.workerStep_hand (h : Employing s owner) (hf : (s.workers w).pc.hand = some f)
    (hheap : ∀ g, g ≠ f → t.heap g = s.heap g) (hn : t.nworkers = s.nworkers)
    (hworkers : t.workers = Function.update s.workers w y) : WorkerStep s t w := by
  refine h.workerStep (fun hpc => ?_) (h.apart_hand hf) (h.idle_ne_hand hf) hheap hn hworkers
  rw [hpc] at hf
  cases hf

/-- A move on the fiber in hand. -/
theorem TaskMove.onFiber {size : C → Nat} {l : Label (Cont C)} {b : Branch}
    {ph ph' : Phase (Cont C)} {x : Fiber (Cont C)} (hpc : (s.workers w).pc = .on b f ph)
    (hdown : b ≠ .idle → 32 * x.load size (ph'.point x) + ph'.due <
      32 * (s.heap f).load size (ph.point (s.heap f)) + ph.due)
    (htags : b ≠ .idle →
      (x.job (ph'.point x)).map Job.tag ⊆ ((s.heap f).job (ph.point (s.heap f))).map Job.tag) :
    TaskMove prog size s ((s.setFiber f x).setPC w (.on b f ph')) l w := by
  by_cases hb : b = .idle
  · subst hb
    refine .rests rfl ?_ ?_
    · rw [hpc]
      rfl
    · rw [State.setPC_self]
      rfl
  · have hself : ((s.setFiber f x).setPC w (.on b f ph')).heap f = x := by
      rw [State.setPC_heap, s.setFiber_self]
    refine .works rfl ?_ (.inl ?_) ?_ <;> rw [State.setPC_self]
    · rw [hpc, PC.due_on hb, PC.due_on hb, hself]
      exact hdown hb
    · exact PC.atTask_on hb
    · rw [hpc, PC.tags_on hb, PC.tags_on hb, hself]
      exact htags hb

/-- An action of the code in the fiber in hand. -/
theorem Employing.taskMove_code [DecidableEq C] {size : C → Nat}
    (h : Employing s owner) {b : Branch}
    {c c' : Code (Cont C)} {a : Act (Cont C)} {ph : Phase (Cont C)} {x : Fiber (Cont C)}
    (hpc : (s.workers w).pc = .on b f (.inside (.body c)))
    (hc : c.resume (callbacks prog) a = some c') (hx : CodeMove c' a (s.heap f) x ph) :
    TaskMove prog size s ((s.setFiber f x).setPC w (.on b f ph)) (.act w a) w := by
  have hidle : IdleOk true s := h.idle.mono fun _ => rfl
  rcases code_cases h.wf h.owned hidle hpc hc with ⟨rfl, -⟩ | ⟨hb, k, k', rfl, rfl, -, hk⟩
  · exact .onFiber hpc (absurd rfl) (absurd rfl)
  obtain ⟨htag, hact⟩ := resume_cases hk
  refine .onFiber hpc (fun _ => ?_) fun _ => ?_
  · show _ < 32 * eventsSize size k.rest + 4
    rcases hact with ⟨_, _, rfl, -⟩ | ⟨rfl, hrest⟩ | ⟨rfl, hrest⟩ | ⟨rfl, hrest⟩
    · cases hx
    · cases hx
      rw [hrest, eventsSize_cons]
      show 32 * eventsSize size k'.rest + 20 < 32 * (1 + eventsSize size k'.rest) + 4
      omega
    · cases hx
      rw [hrest, eventsSize_cons]
      show 32 * 0 + 19 < 32 * (1 + eventsSize size []) + 4
      omega
    · cases hx
      rw [hrest, eventsSize_cons]
      show 32 * 0 + 19 < 32 * (1 + eventsSize size []) + 4
      omega
  · rcases hact with ⟨_, _, rfl, -⟩ | ⟨rfl, -⟩ | ⟨rfl, -⟩ | ⟨rfl, -⟩
    · cases hx
    · cases hx
      show ({k'.tag} : Multiset Nat) ⊆ {k.tag}
      rw [htag]
      exact Multiset.Subset.refl _
    · cases hx
      exact Multiset.zero_subset _
    · cases hx
      exact Multiset.zero_subset _

/-- The callback in hand schedules another one. -/
theorem Employing.taskMove_schedule [DecidableEq C] {size : C → Nat}
    (h : Employing s owner) {b : Branch}
    {c c' : Code (Cont C)} {fc : Option (Task (Cont C))} {thread : Int}
    (hpc : (s.workers w).pc = .on b f (.inside (.body c)))
    (hc : c.resume (callbacks prog) (.schedule fc thread) = some c') :
    TaskMove prog size s ((s.schedule fc thread).setPC w (.on b f (.inside (.body c'))))
      (.act w (.schedule fc thread)) w := by
  have hidle : IdleOk true s := h.idle.mono fun _ => rfl
  rcases code_cases h.wf h.owned hidle hpc hc with
    ⟨-, -, hact | ⟨v, hact⟩ | hact⟩ | ⟨hb, k, k', rfl, rfl, -, hk⟩
  · cases hact
  · cases hact
  · cases hact
  obtain ⟨htag, ⟨tag, d, hact, hrest⟩ | ⟨hact, -⟩ | ⟨hact, -⟩ | ⟨hact, -⟩⟩ :=
    resume_cases hk
  · cases hact
    refine .schedules tag d rfl rfl rfl ?_ ?_ ?_ <;> rw [State.setPC_self]
    · rw [hpc, PC.due_on hb, PC.due_on hb]
      show 32 * eventsSize size k.rest + 4 = 32 * eventsSize size k'.rest + 4 + 32 * (size d + 1)
      rw [hrest, eventsSize_cons]
      show 32 * (size d + 1 + eventsSize size k'.rest) + 4 = _
      omega
    · exact PC.atTask_on hb
    · rw [hpc, PC.tags_on hb, PC.tags_on hb]
      show ({k'.tag} : Multiset Nat) ⊆ {k.tag}
      rw [htag]
      exact Multiset.Subset.refl _
  · cases hact
  · cases hact
  · cases hact

/-- The queue holds nothing that a worker would pass over. -/
theorem Tidy.not_skipped (h : Tidy s) {e : FiberAndThread (Cont C)}
    (he : e ∈ s.fibers) (tid : Int) :
    e.skipped s.heap tid = false := by
  have hthread : ¬ (e.thread ≠ -1 ∧ e.thread ≠ tid) := fun hne => hne.1 (h.thread e he)
  rw [FiberAndThread.skipped, if_neg hthread]
  cases htask : e.task with
  | fiber f => simp [h.ready e he f htask]
  | cb k => rfl

/-- No entry is passed over in a tidy queue. -/
theorem Tidy.scan_head (h : Tidy s) {tid : Int} {e : FiberAndThread (Cont C)}
    {q : List (FiberAndThread (Cont C))} (hq : scanQueue s.heap tid s.fibers = some (e, q)) :
    s.fibers = e :: q := by
  obtain ⟨pre, post, hfib, rfl, -, hskip⟩ := scanQueue_some hq
  cases pre with
  | nil => exact hfib
  | cons a pre =>
    -- the first task would have been passed over
    have ha : a ∈ s.fibers := by
      rw [hfib]
      exact List.mem_cons_self
    have hno := h.not_skipped ha tid
    rw [hskip a List.mem_cons_self] at hno
    cases hno

/-- One case for each kind of step. -/
theorem Flawless.taskMove [DecidableEq C] {r : Record C} {l : Label (Cont C)} (size : C → Nat)
    (h : Flawless prog (s, r)) (hl : l.ofWorker w) (hm : Move (callbacks prog) s l t) :
    WorkerStep s t w ∧ TaskMove prog size s t l w := by
  have he : Employing s r.owner := h.draining.employing
  cases hm with
  | fails hf => exact absurd hf (h.not_fails _ _)
  | owner hown _ => rcases hown with ⟨_, rfl⟩ | rfl | rfl <;> exact hl.elim
  | extSchedule _ => exact hl.elim
  | extNew => exact hl.elim
  | prelude hpc =>
    obtain rfl := hl
    refine ⟨he.workerStep (by rw [hpc]; nofun) (he.apart_new _) (fun v _ => he.idle_ne_new v)
      (fun g hg => s.alloc_ne g _ hg) rfl rfl, .rests rfl ?_ ?_⟩
    · rw [hpc]
      rfl
    · rw [State.setWorker_self]
      rfl
  | scanNone hpc _ =>
    obtain rfl := hl
    refine ⟨he.workerStep_same (by rw [hpc]; nofun) rfl rfl rfl, .rests rfl ?_ ?_⟩
    · rw [hpc]
      rfl
    · rw [State.setPC_self]
      rfl
  | @scanSome w' e q hpc hq =>
    obtain rfl := hl
    refine ⟨he.workerStep_same (by rw [hpc]; nofun) rfl rfl rfl,
      .takes e (he.tidy.scan_head hq) rfl hpc ?_⟩
    rw [State.setPC_self]
  | checkNone hpc =>
    obtain rfl := hl
    refine ⟨he.workerStep_same (by rw [hpc]; nofun) rfl rfl rfl, .rests rfl ?_ ?_⟩
    · rw [hpc]
      rfl
    · rw [State.setPC_self]
      rfl
  | checkDone hpc hfin =>
    rw [he.not_checkDone hpc] at hfin
    cases hfin
  | checkFiber hpc _ =>
    obtain rfl := hl
    refine ⟨he.workerStep_same (by rw [hpc]; nofun) rfl rfl rfl, .works rfl ?_ (.inl ?_) ?_⟩ <;>
      rw [State.setPC_self]
    · rw [hpc]
      exact Nat.add_lt_add_left (show 7 < 9 by decide) _
    · rfl
    · rw [hpc]
      exact Multiset.Subset.refl _
  | checkCb hpc =>
    obtain rfl := hl
    refine ⟨he.workerStep_same (by rw [hpc]; nofun) rfl rfl rfl, .works rfl ?_ (.inl ?_) ?_⟩ <;>
      rw [State.setPC_self]
    · rw [hpc]
      exact Nat.lt_succ_self _
    · rfl
    · rw [hpc]
      exact Multiset.Subset.refl _
  | @prepareOld w' k g hpc hg _ =>
    obtain rfl := hl
    refine ⟨he.workerStep (by rw [hpc]; nofun) (he.apart_cbFiber hpc hg)
      (fun v _ => he.idle_ne_cbFiber hg v) (fun f hf => s.setFiber_ne g f _ hf) rfl rfl,
      .works rfl ?_ (.inl ?_) ?_⟩ <;> rw [State.setPC_self]
    · rw [hpc, State.setPC_heap]
      show 32 * ((s.setFiber g _).heap g).load size _ + 7 < 32 * eventsSize size _ + 8
      rw [s.setFiber_self]
      exact Nat.lt_succ_self _
    · rfl
    · rw [hpc, State.setPC_heap, PC.tags_on (b := .cb) nofun, s.setFiber_self]
      exact Multiset.Subset.refl _
  | @prepareNew w' k hpc _ =>
    obtain rfl := hl
    refine ⟨he.workerStep (by rw [hpc]; nofun) (he.apart_new _) (fun v _ => he.idle_ne_new v)
      (fun g hg => s.alloc_ne g _ hg) rfl rfl, .works rfl ?_ (.inl ?_) ?_⟩ <;>
        rw [State.setWorker_self]
    · rw [hpc, State.setWorker_heap]
      show 32 * ((s.alloc _).heap s.nfib).load size _ + 7 < 32 * eventsSize size _ + 8
      rw [s.alloc_self]
      exact Nat.lt_succ_self _
    · rfl
    · rw [hpc, State.setWorker_heap, PC.tags_on (b := .cb) nofun, s.alloc_self]
      exact Multiset.Subset.refl _
  | idleExit hpc _ _ =>
    obtain rfl := hl
    refine ⟨he.workerStep_same (by rw [hpc]; nofun) rfl rfl rfl, .rests rfl ?_ ?_⟩
    · rw [hpc]
      rfl
    · rw [State.setPC_self]
      rfl
  | idleEnter hpc _ _ =>
    obtain rfl := hl
    refine ⟨he.workerStep_same (by rw [hpc]; nofun) rfl rfl rfl, .rests rfl ?_ ?_⟩
    · rw [hpc]
      rfl
    · rw [State.setPC_self]
      rfl
  | @fiber w' b f ph x ph' hpc hx =>
    obtain rfl := hl
    exact ⟨he.workerStep_hand (f := f) (by rw [hpc]; rfl)
      (fun g hg => s.setFiber_ne f g x hg) rfl rfl,
      .onFiber hpc hx.due fun _ => hx.tags⟩
  | @decrement w' b f hpc hb =>
    obtain rfl := hl
    refine ⟨he.workerStep_same (by rw [hpc]; nofun) rfl rfl rfl, .works rfl ?_ (.inl ?_) ?_⟩ <;>
      rw [State.setPC_self]
    · rw [hpc, PC.due_on hb, PC.due_on hb]
      exact Nat.lt_succ_self (32 * (s.heap f).load size (s.heap f).ctx + 17)
    · exact PC.atTask_on hb
    · rw [hpc, PC.tags_on hb, PC.tags_on hb]
      exact Multiset.Subset.refl _
  | @requeue w' b f hpc =>
    obtain rfl := hl
    have hb : b ≠ .idle := (he.wf.worker w').fits b f _ hpc
    refine ⟨he.workerStep_same (by rw [hpc]; nofun) rfl rfl rfl,
      .requeues ⟨.fiber f, -1⟩ rfl rfl ?_ ?_ ?_⟩
    · rw [hpc, PC.due_on hb]
      exact Nat.add_lt_add_left (show 10 < 16 by decide) _
    · rw [hpc, PC.tags_on hb]
      exact Multiset.Subset.refl _
    · rw [State.setWorker_self]
  | @leave w' b f hpc _ _ =>
    obtain rfl := hl
    refine ⟨he.workerStep_same (by rw [hpc]; nofun) rfl rfl rfl, ?_⟩
    by_cases hb : b = .idle
    · subst hb
      refine .rests rfl ?_ ?_
      · rw [hpc]
        rfl
      · rw [State.setPC_self]
        rfl
    · refine .works rfl ?_ (.inr ?_) ?_ <;> rw [State.setPC_self]
      · rw [hpc, PC.due_on hb]
        exact Nat.succ_pos _
      · exact Multiset.zero_subset _
  | @setHold w' b f hpc =>
    obtain rfl := hl
    obtain rfl := he.idle_of_setHold hpc
    refine ⟨he.workerStep_hand (f := f) (by rw [hpc]; rfl)
      (fun g hg => s.setFiber_ne f g _ hg) rfl rfl,
      .rests rfl ?_ ?_⟩
    · rw [hpc]
      rfl
    · rw [State.setWorker_self]
      rfl
  | @recycle w' b f hpc _ =>
    obtain rfl := hl
    have hb : b = .cb := (he.wf.worker w').fits b f _ hpc
    subst hb
    refine ⟨he.workerStep_hand (f := f) (by rw [hpc]; rfl)
      (fun g hg => s.setFiber_ne f g _ hg) rfl rfl,
      .works rfl ?_ (.inr ?_) ?_⟩ <;> rw [State.setPC_self]
    · rw [hpc]
      exact Nat.succ_pos _
    · exact Multiset.zero_subset _
  | @code w' b f c c' a x ph' hpc hc hx _ =>
    obtain rfl := hl
    exact ⟨he.workerStep_hand (f := f) (by rw [hpc]; rfl)
      (fun g hg => s.setFiber_ne f g x hg) rfl rfl,
      he.taskMove_code hpc hc hx⟩
  | codeSchedule hpc hc _ =>
    obtain rfl := hl
    exact ⟨he.workerStep_same (by rw [hpc]; nofun) rfl rfl rfl, he.taskMove_schedule hpc hc⟩
  | @codeNew w' b f c c' k hpc hc =>
    -- no callback makes a fiber
    have hidle : IdleOk true s := he.idle.mono fun _ => rfl
    rcases code_cases he.wf he.owned hidle hpc hc with
      ⟨-, -, hact | ⟨v, hact⟩ | hact⟩ | ⟨-, k, k', -, -, -, hk⟩
    · cases hact
    · cases hact
    · cases hact
    · rcases (resume_cases hk).2 with ⟨_, _, hact, -⟩ | ⟨hact, -⟩ |
        ⟨hact, -⟩ | ⟨hact, -⟩ <;>
        cases hact

/-! ### The count over one step -/

/-- The count before and after a step of `w`: the part of the other workers is the same. -/
theorem WorkerStep.due (h : WorkerStep s t w) (size : C → Nat) :
    ∃ r, s.due size = s.queueDue size + ((s.workers w).pc.due size s.heap + r) ∧
      t.due size = t.queueDue size + ((t.workers w).pc.due size t.heap + r) := by
  have hothers : ∀ v, v < s.nworkers → v ≠ w →
      (t.workers v).pc.due size t.heap = (s.workers v).pc.due size s.heap := by
    intro v _ hv
    rw [h.others v hv]
    exact PC.due_congr fun f hf => h.heap v hv f (.inl hf)
  obtain ⟨r, hbefore, hafter⟩ := total_split (fun x : Worker (Cont C) => x.pc.due size s.heap)
    (fun x => x.pc.due size t.heap) h.lt hothers
  exact ⟨r, by rw [State.due, hbefore], by rw [State.due, h.nworkers, hafter]⟩

/-- A step of worker `w` brings the count down, or it has no task in hand, neither before
    nor after, and leaves the count and the queue alone. -/
theorem Flawless.countsDown [DecidableEq C] {r : Record C} {l : Label (Cont C)} {size : C → Nat}
    (h : Flawless prog (s, r)) (hsizes : Sizes prog size) (hl : l.ofWorker w)
    (hm : Move (callbacks prog) s l t) :
    t.due size < s.due size ∨
      t.due size = s.due size ∧ t.fibers = s.fibers ∧ (s.workers w).pc.atTask = false ∧
        (t.workers w).pc.atTask = false := by
  obtain ⟨hstep, hmove⟩ := h.taskMove size hl hm
  obtain ⟨m, hbefore, hafter⟩ := hstep.due size
  have hqueue : t.fibers = s.fibers → t.queueDue size = s.queueDue size := fun hfibers =>
    queueDue_congr hfibers hstep.queue
  cases hmove with
  | rests hfibers hrest hrest' =>
    rw [hqueue hfibers, PC.due_rest hrest'] at hafter
    rw [PC.due_rest hrest] at hbefore
    exact .inr ⟨by omega, hfibers, hrest, hrest'⟩
  | works hfibers hdown _ _ =>
    rw [hqueue hfibers] at hafter
    exact .inl (by omega)
  | takes e hfibers hheap hpc hpc' =>
    -- from the queue into the hand, which is one less
    have htaken : s.queueDue size = e.task.due size s.heap + t.queueDue size := by
      rw [State.queueDue, State.queueDue, hfibers, hheap, List.map_cons, List.sum_cons]
    rw [hpc, htaken] at hbefore
    rw [hpc', hheap] at hafter
    have hbefore :
        s.due size = 32 * e.task.load size s.heap + 10 + t.queueDue size + (0 + m) := hbefore
    have hafter : t.due size = t.queueDue size + (32 * e.task.load size s.heap + 9 + m) := hafter
    exact .inl (by omega)
  | requeues e hfibers hheap hdown _ hpc' =>
    rw [queueDue_append hfibers hheap, hpc'] at hafter
    have hafter : t.due size = s.queueDue size + e.task.due size s.heap + (0 + m) := hafter
    exact .inl (by omega)
  | schedules tag d _ hfibers hheap hdue _ _ =>
    -- the new callback has been counted with the event that schedules it
    have hsize : (Task.cb (.start prog tag d)).due size s.heap = 32 * size d + 10 := by
      rw [hsizes d, script_eq prog tag d]
      rfl
    rw [queueDue_append hfibers hheap, hsize] at hafter
    exact .inl (by omega)

/-- The owner adds at most workers that have nothing in hand. -/
theorem OwnerFrame.due (h : OwnerFrame s t) : t.due size = s.due size := by
  have hnew :
      ∀ w, s.nworkers ≤ w → w < t.nworkers → (t.workers w).pc.due size t.heap = 0 := by
    intro w h₁ h₂
    obtain ⟨tid, htid⟩ := h.fresh w h₁ h₂
    rw [htid]
    rfl
  have hgrow : total (fun x => x.pc.due size t.heap) t.workers t.nworkers
      = total (fun x => x.pc.due size t.heap) t.workers s.nworkers := total_grow h.grow hnew
  have hold : total (fun x => x.pc.due size t.heap) t.workers s.nworkers
      = total (fun x => x.pc.due size s.heap) s.workers s.nworkers := by
    apply total_congr
    intro w hw
    rw [h.old w (.inl hw), h.heap]
  unfold State.due
  rw [hgrow, hold, queueDue_congr h.fibers fun _ _ f _ => by rw [h.heap]]

end steps

end Gwn.Scheduler
