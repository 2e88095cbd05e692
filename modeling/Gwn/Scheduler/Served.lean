import Gwn.Scheduler.Returns

/-! # No callback is passed over for ever

    Callbacks may schedule each other without an end, and other threads further ones, and
    `stop` need not be called: once there is a worker, every callback that has been
    scheduled is performed to its end, in every run that in the long run passes over no
    party which can move (`every_callback_ends`). Who brings it nearer (`State.server`):

    - the worker that has the callback in hand, with each of its steps
    - while it is queued, the first worker that will look at the queue again; whatever
      worker does so takes the first task, and the callback moves up -/

namespace Gwn.Scheduler

open LTS

variable {C : Type}

/-! ### Where the callback is -/

/-- What is left to do in a task, if it is callback `n`. -/
def Task.owed (n : Nat) (heap : Nat → Fiber (Cont C)) (t : Task (Cont C)) : Nat :=
  if n ∈ t.tags heap then t.due (fun _ => 0) heap else 0

/-- What a worker has left to do of callback `n`, -/
def PC.owed (n : Nat) (heap : Nat → Fiber (Cont C)) (pc : PC (Cont C)) : Nat :=
  if n ∈ pc.tags heap then pc.due (fun _ => 0) heap else 0

/-- and what the queue has. -/
def State.queueOwed (n : Nat) (s : State (Cont C)) : Nat :=
  (s.fibers.map fun e => e.task.owed n s.heap).sum

/-- What is left to do of callback `n`. -/
def State.owed (n : Nat) (s : State (Cont C)) : Nat :=
  s.queueOwed n + total (fun x => x.pc.owed n s.heap) s.workers s.nworkers

/-- Callback `n` is queued. -/
def State.awaits (n : Nat) (s : State (Cont C)) : Bool :=
  s.fibers.any fun e => n ∈ e.task.tags s.heap

/-- The tasks before it. -/
def State.before (n : Nat) (s : State (Cont C)) : Nat :=
  s.fibers.findIdx fun e => n ∈ e.task.tags s.heap

/-- `State.Leaving`, to be computed. -/
def State.leaves {K : Type} (s : State K) (w : Nat) : Bool :=
  match (s.workers w).pc with
  | .exited => true
  | .check none | .idleTest => s.idleEnded w
  | _ => false

/-- The first worker that will look at the queue again. -/
def State.looker? {K : Type} (s : State K) : Option Nat :=
  (List.range s.nworkers).find? fun w => !s.leaves w

/-- The worker that has callback `n` in hand. -/
def State.holder? (n : Nat) (s : State (Cont C)) : Option Nat :=
  (List.range s.nworkers).find? fun w => n ∈ (s.workers w).pc.tags s.heap

/-- Who brings callback `n` nearer to its end: the next to look at the queue, or its holder. -/
def State.server? (n : Nat) (s : State (Cont C)) : Option Nat :=
  if s.awaits n then s.looker? else s.holder? n

def State.server (n : Nat) (s : State (Cont C)) : Party :=
  .worker ((s.server? n).getD 0)

/-- How far the worker is from its next look at the queue. -/
def State.toQueue (s : State (Cont C)) (w : Nat) : Nat :=
  if (s.workers w).pc.atTask then (s.workers w).pc.due (fun _ => 0) s.heap + 2
  else (s.workers w).pc.toGo

/-- What is left to do of the callback, the tasks before it, and the way of the worker
    that is to take the first of them. -/
def State.farness (n : Nat) (s : State (Cont C)) : Nat ×ₗ Nat ×ₗ Nat :=
  toLex (s.owed n, if s.awaits n then toLex (s.before n, (s.looker?.map s.toQueue).getD 0)
    else toLex (0, 0))

/-- The test agrees with the definition of leaving. -/
theorem State.leaves_iff {K : Type} {s : State K} {w : Nat} : s.leaves w = true ↔
    s.Leaving w := by
  have hended : s.idleEnded w = true ↔
      ∃ f, (s.workers w).idleFiber = some f ∧ (s.heap f).state = .term := by
    rw [State.idleEnded, Option.any_eq_true]
    simp only [decide_eq_true_eq]
  unfold State.leaves State.Leaving
  cases (s.workers w).pc with
  | exited => exact ⟨fun _ => trivial, fun _ => rfl⟩
  | idleTest => exact hended
  | check ft =>
    cases ft with
    | none => exact hended
    | some t => exact iff_of_false Bool.false_ne_true id
  | _ => exact iff_of_false Bool.false_ne_true id

/-- The first number with a property stays the first one when others are added behind it. -/
theorem find_range_mono {p p' : Nat → Bool} {n n' i : Nat} (h : (List.range n).find? p = some i)
    (hle : n ≤ n') (hsame : ∀ j, j < n → p' j = p j) : (List.range n').find? p' = some i := by
  rw [List.find?_range_eq_some] at h ⊢
  obtain ⟨hi, hmem, hfirst⟩ := h
  have hlt : i < n := List.mem_range.mp hmem
  refine ⟨(hsame i hlt).trans hi, List.mem_range.mpr (by omega), fun j hj => ?_⟩
  rw [hsame j (by omega)]
  exact hfirst j hj

section places
variable {n : Nat} {heap heap' : Nat → Fiber (Cont C)}

/-- The callback in a place, and what is owed there, depend on the fiber in this place only. -/
theorem Task.tags_congr {t : Task (Cont C)} (h : ∀ f, t = .fiber f → heap' f = heap f) :
    t.tags heap' = t.tags heap := by
  rw [tags, tags, job_congr h]

theorem PC.tags_congr {pc : PC (Cont C)} (h : ∀ f, pc.hand = some f → heap' f = heap f) :
    pc.tags heap' = pc.tags heap := by
  rw [tags, tags, job_congr h]

theorem Task.owed_congr {t : Task (Cont C)} (h : ∀ f, t = .fiber f → heap' f = heap f) :
    t.owed n heap' = t.owed n heap := by
  have hdue : t.due (fun _ => 0) heap' = t.due (fun _ => 0) heap := by
    rw [Task.due, Task.due, Task.load_congr h]
  rw [owed, owed, tags_congr h, hdue]

theorem PC.owed_congr {pc : PC (Cont C)} (h : ∀ f, pc.hand = some f → heap' f = heap f) :
    pc.owed n heap' = pc.owed n heap := by
  rw [owed, owed, tags_congr h, due_congr h]

/-- Where the callback is not, nothing of it is owed, -/
theorem PC.owed_none {pc : PC (Cont C)} (h : n ∉ pc.tags heap) : pc.owed n heap = 0 :=
  if_neg h

/-- and never more than is due in the place. -/
theorem PC.owed_le (n : Nat) (heap : Nat → Fiber (Cont C)) (pc : PC (Cont C)) :
    pc.owed n heap ≤ pc.due (fun _ => 0) heap := by
  unfold owed
  split
  · exact Nat.le_refl _
  · exact Nat.zero_le _

theorem Task.owed_none {t : Task (Cont C)} (h : n ∉ t.tags heap) : t.owed n heap = 0 :=
  if_neg h

theorem Task.owed_le (n : Nat) (heap : Nat → Fiber (Cont C)) (t : Task (Cont C)) :
    t.owed n heap ≤ t.due (fun _ => 0) heap := by
  unfold owed
  split
  · exact Nat.le_refl _
  · exact Nat.zero_le _

/-- A worker that leads the count down has a task in hand. -/
theorem PC.atTask_of_due {pc : PC (Cont C)} {m : Nat} (h : m < pc.due (fun _ => 0) heap) :
    pc.atTask = true := by
  by_contra hrest
  rw [PC.due_rest (by simpa using hrest)] at h
  exact Nat.not_lt_zero _ h

/-- The queue is as it was, -/
theorem queueOwed_congr {s t : State (Cont C)} (hfibers : t.fibers = s.fibers)
    (h : ∀ e ∈ s.fibers, ∀ f, e.task = .fiber f → t.heap f = s.heap f) :
    t.queueOwed n = s.queueOwed n := by
  unfold State.queueOwed
  rw [hfibers]
  congr 1
  apply List.map_congr_left
  intro e he
  exact Task.owed_congr (h e he)

/-- has got one entry more, -/
theorem queueOwed_append {s t : State (Cont C)} {e : FiberAndThread (Cont C)}
    (hfibers : t.fibers = s.fibers ++ [e]) (hheap : t.heap = s.heap) :
    t.queueOwed n = s.queueOwed n + e.task.owed n s.heap := by
  simp [State.queueOwed, hfibers, hheap]

/-- or one less. -/
theorem queueOwed_cons {s t : State (Cont C)} {e : FiberAndThread (Cont C)}
    (hfibers : s.fibers = e :: t.fibers) (hheap : t.heap = s.heap) :
    s.queueOwed n = e.task.owed n s.heap + t.queueOwed n := by
  simp [State.queueOwed, hfibers, hheap]

end places

/-! ### One step -/

/-- What a step of worker `w` means for callback `n`. -/
inductive Serves (n : Nat) (s t : State (Cont C)) (w : Nat) : Prop where
  | nearer (howed : t.owed n < s.owed n)
  /-- The worker takes another task, the first of the queue. -/
  | passes (howed : t.owed n = s.owed n) (e : FiberAndThread (Cont C))
      (hfibers : s.fibers = e :: t.fibers)
    (he : n ∉ e.task.tags s.heap) (hbefore : n ∉ (s.workers w).pc.tags s.heap)
    (hafter : n ∉ (t.workers w).pc.tags t.heap)
  /-- It is at work elsewhere, and comes nearer to the queue unless that is empty. -/
  | elsewhere (howed : t.owed n = s.owed n) (es : List (FiberAndThread (Cont C)))
    (hfibers : t.fibers = s.fibers ++ es) (hes : ∀ e ∈ es, n ∉ e.task.tags t.heap)
    (hbefore : n ∉ (s.workers w).pc.tags s.heap) (hafter : n ∉ (t.workers w).pc.tags t.heap)
    (hdown : s.fibers ≠ [] → t.toQueue w < s.toQueue w)

section steps
variable {prog : C → Body C} {s t : State (Cont C)} {r : Record C}
  {l : Label (Cont C)} {n w : Nat}

/-- A step of `w` leaves what the other workers owe. -/
theorem WorkerStep.owed (h : WorkerStep s t w) (n : Nat) :
    ∃ m, s.owed n = s.queueOwed n + ((s.workers w).pc.owed n s.heap + m) ∧
      t.owed n = t.queueOwed n + ((t.workers w).pc.owed n t.heap + m) := by
  have hothers : ∀ v, v < s.nworkers → v ≠ w →
      (t.workers v).pc.owed n t.heap = (s.workers v).pc.owed n s.heap := by
    intro v _ hv
    rw [h.others v hv]
    exact PC.owed_congr fun f hf => h.heap v hv f (.inl hf)
  obtain ⟨m, hbefore, hafter⟩ := total_split (fun x : Worker (Cont C) => x.pc.owed n s.heap)
    (fun x => x.pc.owed n t.heap) h.lt hothers
  exact ⟨m, by rw [State.owed, hbefore], by rw [State.owed, h.nworkers, hafter]⟩

/-- A worker that goes on with its task comes nearer to the queue. -/
theorem toQueue_works
    (hdown : (t.workers w).pc.due (fun _ => 0) t.heap < (s.workers w).pc.due (fun _ => 0) s.heap)
    (hnext : (t.workers w).pc.atTask = true ∨ (t.workers w).pc = .scan) :
    t.toQueue w < s.toQueue w := by
  unfold State.toQueue
  rw [if_pos (PC.atTask_of_due hdown)]
  rcases hnext with htask | hscan
  · rw [if_pos htask]
    omega
  · rw [hscan]
    show 2 < _
    omega

/-- One case for each thing that a worker does with tasks. -/
theorem Flawless.serves [DecidableEq C] (h : Flawless prog (s, r)) (hord : Orderly prog (s, r) l)
    (hn : n < r.jobs.length) (hl : l.ofWorker w) (hm : Move (callbacks prog) s l t) :
    Serves n s t w := by
  obtain ⟨hstep, hmove⟩ := h.taskMove (fun _ => 0) hl hm
  obtain ⟨m, hbefore, hafter⟩ := hstep.owed n
  cases hmove with
  | rests hfibers hrest hrest' =>
    have hno : n ∉ (s.workers w).pc.tags s.heap := by
      rw [PC.tags_rest hrest]
      exact Multiset.notMem_zero n
    have hno' : n ∉ (t.workers w).pc.tags t.heap := by
      rw [PC.tags_rest hrest']
      exact Multiset.notMem_zero n
    rw [PC.owed_none hno] at hbefore
    rw [PC.owed_none hno', queueOwed_congr hfibers hstep.queue] at hafter
    refine .elsewhere (by omega) [] (by rw [hfibers, List.append_nil]) nofun hno hno' fun hq => ?_
    have hdown := (h.restStep hl hm hrest hrest').down fun hempty => absurd hempty hq
    rw [State.distance, State.distance, if_neg hq, hfibers, if_neg hq] at hdown
    rw [State.toQueue, State.toQueue, hrest, hrest']
    exact hdown
  | works hfibers hdown hnext htags =>
    rw [queueOwed_congr hfibers hstep.queue] at hafter
    -- either it works on the callback itself or on another one
    by_cases hmem : n ∈ (s.workers w).pc.tags s.heap
    · have hle := PC.owed_le n t.heap (t.workers w).pc
      rw [PC.owed, if_pos hmem] at hbefore
      exact .nearer (by omega)
    · have hmem' : n ∉ (t.workers w).pc.tags t.heap := fun hmem' => hmem (htags hmem')
      rw [PC.owed_none hmem] at hbefore
      rw [PC.owed_none hmem'] at hafter
      exact .elsewhere (by omega) [] (by rw [hfibers, List.append_nil]) nofun hmem hmem' fun _ =>
        toQueue_works hdown hnext
  | takes e hfibers hheap hpc hpc' =>
    have hno : n ∉ (s.workers w).pc.tags s.heap := by
      rw [hpc]
      exact Multiset.notMem_zero n
    rw [PC.owed_none hno, queueOwed_cons hfibers hheap] at hbefore
    by_cases hmem : n ∈ e.task.tags s.heap
    · -- from the queue into the hand: one less
      have hle := PC.owed_le n t.heap (t.workers w).pc
      have hhand : (t.workers w).pc.due (fun _ => 0) t.heap + 1 = e.task.owed n s.heap := by
        rw [hpc', hheap, Task.owed, if_pos hmem]
        rfl
      exact .nearer (by omega)
    · have hmem' : n ∉ (t.workers w).pc.tags t.heap := by
        rw [hpc', hheap]
        exact hmem
      rw [Task.owed_none hmem] at hbefore
      rw [PC.owed_none hmem'] at hafter
      exact .passes (by omega) e hfibers hmem hno hmem'
  | requeues e hfibers hheap hdown htags hpc' =>
    have hno' : n ∉ (t.workers w).pc.tags t.heap := by
      rw [hpc']
      exact Multiset.notMem_zero n
    rw [PC.owed_none hno', queueOwed_append hfibers hheap] at hafter
    by_cases hmem : n ∈ (s.workers w).pc.tags s.heap
    · have hle := Task.owed_le n s.heap e.task
      rw [PC.owed, if_pos hmem] at hbefore
      exact .nearer (by omega)
    · have hmem' : n ∉ e.task.tags s.heap := fun hmem' => hmem (htags hmem')
      rw [PC.owed_none hmem] at hbefore
      rw [Task.owed_none hmem'] at hafter
      refine .elsewhere (by omega) [e] hfibers (fun e' he' => ?_) hmem hno' fun _ => ?_
      · rw [List.mem_singleton.mp he', hheap]
        exact hmem'
      · refine toQueue_works ?_ (.inr hpc')
        rw [hpc']
        exact Nat.zero_lt_of_lt hdown
  | schedules tag d hlabel hfibers hheap hdue hnext htags =>
    have hdown :
        (t.workers w).pc.due (fun _ => 0) t.heap < (s.workers w).pc.due (fun _ => 0) s.heap := by
      omega
    -- the new callback has a new number
    have hnew : n ∉ (Task.cb (.start prog tag d)).tags s.heap := by
      subst hlabel
      have htag : tag = r.jobs.length := hord
      intro hmem
      have hmem : n ∈ ({tag} : Multiset Nat) := hmem
      rw [Multiset.mem_singleton] at hmem
      omega
    rw [queueOwed_append hfibers hheap, Task.owed_none hnew] at hafter
    by_cases hmem : n ∈ (s.workers w).pc.tags s.heap
    · have hle := PC.owed_le n t.heap (t.workers w).pc
      rw [PC.owed, if_pos hmem] at hbefore
      exact .nearer (by omega)
    · have hmem' : n ∉ (t.workers w).pc.tags t.heap := fun hmem' => hmem (htags hmem')
      rw [PC.owed_none hmem] at hbefore
      rw [PC.owed_none hmem'] at hafter
      refine .elsewhere (by omega) _ hfibers (fun e he => ?_) hmem hmem' fun _ =>
        toQueue_works hdown (.inl hnext)
      rw [List.mem_singleton.mp he, hheap]
      exact hnew

end steps

/-! ### The callback and the queue -/

section queue
variable {s t : State (Cont C)} {n v : Nat} {e : FiberAndThread (Cont C)}
  {es : List (FiberAndThread (Cont C))}

theorem any_tags_congr {q : List (FiberAndThread (Cont C))}
    (h : ∀ e ∈ q, e.task.tags t.heap = e.task.tags s.heap) :
    (q.any fun e => n ∈ e.task.tags t.heap) = q.any fun e => n ∈ e.task.tags s.heap := by
  induction q with
  | nil => rfl
  | cons a q ih =>
    rw [List.any_cons, List.any_cons, h a List.mem_cons_self,
      ih fun e he => h e (List.mem_cons_of_mem a he)]

theorem findIdx_tags_congr {q : List (FiberAndThread (Cont C))}
    (h : ∀ e ∈ q, e.task.tags t.heap = e.task.tags s.heap) :
    (q.findIdx fun e => n ∈ e.task.tags t.heap) = q.findIdx fun e =>
      n ∈ e.task.tags s.heap := by
  induction q with
  | nil => rfl
  | cons a q ih =>
    rw [List.findIdx_cons, List.findIdx_cons, h a List.mem_cons_self,
      ih fun e he => h e (List.mem_cons_of_mem a he)]

/-- Other tasks join the queue behind the callback. -/
theorem awaits_append (hfibers : t.fibers = s.fibers ++ es)
    (hes : ∀ e ∈ es, n ∉ e.task.tags t.heap)
    (hqueue : ∀ e ∈ s.fibers, e.task.tags t.heap = e.task.tags s.heap) :
    t.awaits n = s.awaits n ∧ (s.awaits n = true → t.before n = s.before n) := by
  have hnone : (es.any fun e => n ∈ e.task.tags t.heap) = false := by
    rw [List.any_eq_false]
    intro e he
    simpa using hes e he
  constructor
  · unfold State.awaits
    rw [hfibers, List.any_append, hnone, Bool.or_false, any_tags_congr hqueue]
  · intro hawaits
    unfold State.before
    rw [hfibers, List.findIdx_append, findIdx_tags_congr hqueue, if_pos]
    exact List.findIdx_lt_length.mpr (List.any_eq_true.mp hawaits)

/-- The first task is another one, and is taken out of the queue. -/
theorem awaits_tail (hfibers : s.fibers = e :: t.fibers) (he : n ∉ e.task.tags s.heap)
    (hqueue : ∀ e ∈ s.fibers, e.task.tags t.heap = e.task.tags s.heap) :
    t.awaits n = s.awaits n ∧ s.before n = t.before n + 1 := by
  have htail : ∀ e ∈ t.fibers, e.task.tags t.heap = e.task.tags s.heap := fun e' he' =>
    hqueue e' (by rw [hfibers]; exact List.mem_cons_of_mem e he')
  constructor
  · unfold State.awaits
    rw [hfibers, List.any_cons, any_tags_congr htail]
    simp [he]
  · unfold State.before
    rw [hfibers, List.findIdx_cons, findIdx_tags_congr htail]
    simp [he]

/-- A callback that waits in the queue is in it. -/
theorem fibers_of_awaits (h : s.awaits n = true) : s.fibers ≠ [] := by
  intro hempty
  rw [State.awaits, hempty] at h
  cases h

/-- While the callback is queued it is as far as the worker that looks at the queue next. -/
theorem farness_awaits (h : s.awaits n = true) (hv : s.server? n = some v) :
    s.looker? = some v ∧ s.farness n = toLex (s.owed n, toLex (s.before n, s.toQueue v)) := by
  rw [State.server?, if_pos h] at hv
  rw [State.farness, if_pos h, hv]
  exact ⟨rfl, rfl⟩

theorem farness_held (h : s.awaits n = false) (hv : s.server? n = some v) :
    s.holder? n = some v ∧ s.farness n = toLex (s.owed n, toLex (0, 0)) := by
  have hno : ¬ s.awaits n = true := by simp [h]
  rw [State.server?, if_neg hno] at hv
  rw [State.farness, if_neg hno]
  exact ⟨hv, rfl⟩

theorem server_awaits (h : s.awaits n = true) (hv : s.looker? = some v) : s.server? n = some v := by
  rw [State.server?, if_pos h, hv]

theorem server_held (h : s.awaits n = false) (hv : s.holder? n = some v) :
    s.server? n = some v := by
  rw [State.server?, if_neg (by simp [h]), hv]

end queue

/-! ### Nearer to the end -/

section steps
variable {prog : C → Body C} {s t : State (Cont C)} {r : Record C}
  {l : Label (Cont C)} {n v w : Nat}

/-- A worker that is about to leave does so. -/
theorem Leaving.goes [DecidableEq C] (h : Flawless prog (s, r)) (hw : s.Leaving w)
    (hl : l.ofWorker w) (hm : Move (callbacks prog) s l t) : t.Leaving w := by
  -- anywhere else in `run` it is not about to leave
  have elsewhere : ∀ {pc : PC (Cont C)}, (s.workers w).pc = pc →
      pc ≠ .exited → pc ≠ .check none → pc ≠ .idleTest → t.Leaving w := by
    intro pc hpc h₁ h₂ h₃
    unfold State.Leaving at hw
    rw [hpc] at hw
    split at hw
    · exact absurd rfl h₁
    · exact absurd rfl h₂
    · exact absurd rfl h₃
    · exact hw.elim
  cases hm with
  | fails hf => exact absurd hf (h.not_fails _ _)
  | owner hown _ => rcases hown with ⟨_, rfl⟩ | rfl | rfl <;> exact hl.elim
  | extSchedule _ => exact hl.elim
  | extNew => exact hl.elim
  | checkNone hpc =>
    obtain rfl := hl
    unfold State.Leaving at hw ⊢
    rw [hpc] at hw
    rw [State.setPC_self]
    exact hw
  | idleExit hpc _ _ =>
    obtain rfl := hl
    unfold State.Leaving
    rw [State.setPC_self]
    trivial
  | idleEnter hpc hf hst =>
    obtain rfl := hl
    unfold State.Leaving at hw
    rw [hpc] at hw
    obtain ⟨f, hf', hst'⟩ := hw
    rw [hf] at hf'
    cases hf'
    exact absurd hst' hst
  | _ hpc =>
    obtain rfl := hl
    exact elsewhere hpc nofun nofun nofun

/-- With something in the queue no worker makes up its mind to leave. -/
theorem Flawless.leaves_same [DecidableEq C] (h : Flawless prog (s, r)) (hl : l.ofWorker w)
    (hm : Move (callbacks prog) s l t) (hstep : WorkerStep s t w) (hq : t.fibers ≠ []) (v : Nat) :
    t.leaves v = s.leaves v := by
  by_cases hv : v = w
  · subst hv
    have hl' : l = .work v ∨ ∃ a, l = .act v a := by
      cases l with
      | work v' => exact .inl (by rw [show v' = v from hl])
      | act v' a => exact .inr ⟨a, by rw [show v' = v from hl]⟩
      | _ => exact hl.elim
    rw [Bool.eq_iff_iff, State.leaves_iff, State.leaves_iff]
    constructor
    · intro hleave
      rcases h.draining.employing.leaving hl' hm hleave with hempty | ⟨hleave, -⟩
      · exact absurd hempty hq
      · exact hleave
    · exact fun hleave => Leaving.goes h hleave hl hm
  · have hworker := hstep.others v hv
    have hended : t.idleEnded v = s.idleEnded v := by
      cases hf : (s.workers v).idleFiber with
      | none => simp [State.idleEnded, hworker, hf]
      | some f =>
        rw [State.idleEnded_eq hf, State.idleEnded_eq (hworker ▸ hf), hstep.heap v hv f (.inr hf)]
    unfold State.leaves
    rw [hworker, hended]

theorem WorkerStep.tags_queue (h : WorkerStep s t w) :
    ∀ e ∈ s.fibers, e.task.tags t.heap = e.task.tags s.heap :=
  fun e he => Task.tags_congr (h.queue e he)

/-- A worker that does not have the callback in hand leaves it to the one that has. -/
theorem WorkerStep.holder (h : WorkerStep s t w) (hbefore : n ∉ (s.workers w).pc.tags s.heap)
    (hafter : n ∉ (t.workers w).pc.tags t.heap) (hv : s.holder? n = some v) :
    t.holder? n = some v ∧ w ≠ v := by
  refine ⟨find_range_mono hv (Nat.le_of_eq h.nworkers.symm) fun j _ => ?_, ?_⟩
  · by_cases hj : j = w
    · rw [hj]
      simp [hbefore, hafter]
    · rw [h.others j hj, PC.tags_congr fun f hf => h.heap j hj f (.inl hf)]
  · rintro rfl
    exact hbefore (by simpa using List.find?_some hv)

/-- The callback is as far from its end as before, but nearer to the worker that waits for
    it if this is the one that moves. -/
theorem Flawless.serves_down [DecidableEq C] (h : Flawless prog (s, r))
    (hord : Orderly prog (s, r) l)
    (hn : n < r.jobs.length) (hl : l.ofWorker w) (hm : Move (callbacks prog) s l t)
    (hv : s.server? n = some v) :
    t.farness n < s.farness n ∨ t.farness n = s.farness n ∧
      t.server? n = some v ∧ w ≠ v := by
  have hstep := (h.taskMove (fun _ => 0) hl hm).1
  cases h.serves hord hn hl hm with
  | nearer howed => exact .inl (Prod.Lex.toLex_lt_toLex.mpr (.inl howed))
  | passes howed e hfibers he hbefore hafter =>
    obtain ⟨hawaits, hless⟩ := awaits_tail hfibers he hstep.tags_queue
    cases ha : s.awaits n with
    | true =>
      left
      rw [(farness_awaits ha hv).2, State.farness, if_pos (hawaits.trans ha), howed, hless]
      exact Prod.Lex.toLex_lt_toLex.mpr
        (.inr ⟨rfl, Prod.Lex.toLex_lt_toLex.mpr (.inl (Nat.lt_succ_self _))⟩)
    | false =>
      obtain ⟨hholder, hfar⟩ := farness_held ha hv
      obtain ⟨hholder', hne⟩ := hstep.holder hbefore hafter hholder
      have hserver := server_held (hawaits.trans ha) hholder'
      exact .inr
        ⟨by rw [hfar, (farness_held (hawaits.trans ha) hserver).2, howed], hserver, hne⟩
  | elsewhere howed es hfibers hes hbefore hafter hdown =>
    -- what joins the queue does so behind the callback
    obtain ⟨hawaits, hsame⟩ := awaits_append hfibers hes hstep.tags_queue
    cases ha : s.awaits n with
    | true =>
      obtain ⟨hlooker, hfar⟩ := farness_awaits ha hv
      have hlooker' : t.looker? = some v :=
        find_range_mono hlooker (Nat.le_of_eq hstep.nworkers.symm)
        fun j _ => by rw [h.leaves_same hl hm hstep (fibers_of_awaits (hawaits.trans ha)) j]
      have hserver := server_awaits (hawaits.trans ha) hlooker'
      rw [hfar, (farness_awaits (hawaits.trans ha) hserver).2, howed, hsame ha]
      by_cases hwv : w = v
      · -- the callback waits for this worker, which is a step nearer to the queue
        subst hwv
        exact .inl (Prod.Lex.toLex_lt_toLex.mpr (.inr ⟨rfl, Prod.Lex.toLex_lt_toLex.mpr
          (.inr ⟨rfl, hdown (fibers_of_awaits ha)⟩)⟩))
      · have hway : t.toQueue v = s.toQueue v := by
          unfold State.toQueue
          rw [hstep.others v (Ne.symm hwv),
            PC.due_congr fun f hf => hstep.heap v (Ne.symm hwv) f (.inl hf)]
        exact .inr ⟨by rw [hway], hserver, hwv⟩
    | false =>
      obtain ⟨hholder, hfar⟩ := farness_held ha hv
      obtain ⟨hholder', hne⟩ := hstep.holder hbefore hafter hholder
      have hserver := server_held (hawaits.trans ha) hholder'
      exact .inr
        ⟨by rw [hfar, (farness_held (hawaits.trans ha) hserver).2, howed], hserver, hne⟩

/-- The owner and other threads add workers and callbacks. -/
theorem farness_grow (es : List (FiberAndThread (Cont C))) (hheap : t.heap = s.heap)
    (hfibers : t.fibers = s.fibers ++ es) (hes : ∀ e ∈ es, n ∉ e.task.tags t.heap)
    (hgrow : s.nworkers ≤ t.nworkers) (hold : ∀ w, w < s.nworkers → t.workers w = s.workers w)
    (hnew : ∀ w, s.nworkers ≤ w → w < t.nworkers → n ∉ (t.workers w).pc.tags t.heap)
    (hv : s.server? n = some v) : t.farness n = s.farness n ∧ t.server? n = some v := by
  have howed : t.owed n = s.owed n := by
    have hqueue : t.queueOwed n = s.queueOwed n := by
      have hnone : (es.map fun e => e.task.owed n t.heap).sum = 0 := by
        rw [List.sum_eq_zero_iff]
        intro x hx
        obtain ⟨e, he, rfl⟩ := List.mem_map.mp hx
        exact Task.owed_none (hes e he)
      rw [State.queueOwed, State.queueOwed, hfibers, List.map_append, List.sum_append, hnone,
        hheap, add_zero]
    have hworkers : total (fun x => x.pc.owed n t.heap) t.workers t.nworkers
        = total (fun x => x.pc.owed n s.heap) s.workers s.nworkers := by
      have hgrown : total (fun x => x.pc.owed n t.heap) t.workers t.nworkers
          = total (fun x => x.pc.owed n t.heap) t.workers s.nworkers :=
        total_grow hgrow fun w h₁ h₂ => PC.owed_none (hnew w h₁ h₂)
      rw [hgrown]
      apply total_congr
      intro w hw
      rw [hold w hw, hheap]
    rw [State.owed, State.owed, hqueue, hworkers]
  obtain ⟨hawaits, hsame⟩ := awaits_append hfibers hes fun e _ => by rw [hheap]
  -- new workers come behind the one that is waited for
  cases ha : s.awaits n with
  | true =>
    obtain ⟨hlooker, hfar⟩ := farness_awaits ha hv
    have hlooker' : t.looker? = some v := find_range_mono hlooker hgrow fun j hj => by
      rw [State.leaves, State.leaves, State.idleEnded, State.idleEnded, hold j hj, hheap]
    have hlt : v < s.nworkers := List.mem_range.mp (List.mem_of_find?_eq_some hlooker)
    have hserver := server_awaits (hawaits.trans ha) hlooker'
    have hway : t.toQueue v = s.toQueue v := by
      rw [State.toQueue, State.toQueue, hold v hlt, hheap]
    exact ⟨by rw [hfar, (farness_awaits (hawaits.trans ha) hserver).2, howed, hsame ha, hway],
      hserver⟩
  | false =>
    obtain ⟨hholder, hfar⟩ := farness_held ha hv
    have hholder' : t.holder? n = some v := find_range_mono hholder hgrow fun j hj => by
      rw [hold j hj, hheap]
    have hserver := server_held (hawaits.trans ha) hholder'
    exact ⟨by rw [hfar, (farness_held (hawaits.trans ha) hserver).2, howed], hserver⟩

theorem OwnerFrame.farness (h : OwnerFrame s t) (hv : s.server? n = some v) :
    t.farness n = s.farness n ∧ t.server? n = some v := by
  refine farness_grow [] h.heap (by rw [h.fibers, List.append_nil]) nofun h.grow
    (fun w hw => h.old w (.inl hw)) (fun w h₁ h₂ => ?_) hv
  obtain ⟨tid, htid⟩ := h.fresh w h₁ h₂
  rw [htid]
  exact Multiset.notMem_zero n

/-! ### Runs -/

theorem mem_queue {heap : Nat → Fiber (Cont C)} {q : List (FiberAndThread (Cont C))}
    {j : Job (Ev C)}
    (h : j ∈ (q.map fun e => e.task.job heap).sum) : ∃ e ∈ q, j ∈ e.task.job heap := by
  induction q with
  | nil => exact absurd h (Multiset.notMem_zero j)
  | cons a q ih =>
    rw [List.map_cons, List.sum_cons, Multiset.mem_add] at h
    rcases h with h | h
    · exact ⟨a, List.mem_cons_self, h⟩
    · obtain ⟨e, he, hje⟩ := ih h
      exact ⟨e, List.mem_cons_of_mem a he, hje⟩

/-- What has not been performed to its end is queued or in some hand. -/
theorem mem_pending_of_jobs {c : C} (h : Tracks prog s r) (hc : r.jobs[n]? = some c)
    (hleft : performed (r.log.map fun e => (e.tag, e.ev)) n ≠ (prog c).script) :
    s.awaits n = true ∨ ∃ w, w < s.nworkers ∧ n ∈ (s.workers w).pc.tags s.heap := by
  have hmem : n ∈ s.pending.map Job.tag := by
    by_contra hno
    exact hleft (h.sound.complete n c hc hno)
  obtain ⟨j, hj, rfl⟩ := Multiset.mem_map.mp hmem
  rw [State.pending, Multiset.mem_add] at hj
  rcases hj with hj | hj
  · left
    obtain ⟨e, he, hje⟩ := mem_queue hj
    exact List.any_eq_true.mpr ⟨e, he, decide_eq_true (Multiset.mem_map_of_mem Job.tag hje)⟩
  · right
    obtain ⟨w, hw, hjw⟩ := Multiset.mem_sum.mp hj
    exact ⟨w, Finset.mem_range.mp hw, Multiset.mem_map_of_mem Job.tag hjw⟩

theorem find_range_some {p : Nat → Bool} {n i : Nat} (hi : i < n) (hp : p i = true) :
    ∃ j, (List.range n).find? p = some j ∧ j < n ∧ p j = true := by
  obtain ⟨j, hj⟩ := Option.isSome_iff_exists.mp
    (List.find?_isSome.mpr ⟨i, List.mem_range.mpr hi, hp⟩)
  exact ⟨j, hj, List.mem_range.mp (List.mem_of_find?_eq_some hj), List.find?_some hj⟩

/-- Where there are workers, one of them can bring the callback nearer to its end. -/
theorem server_some {c : C} (hd : Draining prog (s, r)) (ht : Tracks prog s r)
    (hpos : 0 < s.nworkers) (hc : r.jobs[n]? = some c)
    (hleft : performed (r.log.map fun e => (e.tag, e.ev)) n ≠ (prog c).script) :
    ∃ v, s.server? n = some v ∧ (s.workers v).pc ≠ .exited := by
  cases ha : s.awaits n with
  | true =>
    -- the last worker to leave leaves nothing behind
    obtain ⟨w, hw, hlooks⟩ : ∃ w, w < s.nworkers ∧ ¬ s.Leaving w := by
      by_contra hall
      simp only [not_exists, not_and, not_not] at hall
      exact fibers_of_awaits ha (hd.joins.leaving hpos hall)
    have hlooks : (!s.leaves w) = true := by
      rw [Bool.not_eq_true', ← Bool.not_eq_true, State.leaves_iff]
      exact hlooks
    obtain ⟨v, hv, -, hlooks⟩ := find_range_some (p := fun w => !s.leaves w) hw hlooks
    refine ⟨v, server_awaits ha hv, fun hpc => ?_⟩
    rw [State.leaves, hpc] at hlooks
    cases hlooks
  | false =>
    obtain ⟨w, hw, hmem⟩ := (mem_pending_of_jobs ht hc hleft).resolve_left (by simp [ha])
    obtain ⟨v, hv, -, hmem⟩ :=
      find_range_some (p := fun w => n ∈ (s.workers w).pc.tags s.heap) hw
      (decide_eq_true hmem)
    refine ⟨v, server_held ha hv, fun hpc => ?_⟩
    rw [hpc] at hmem
    exact absurd (of_decide_eq_true hmem) (Multiset.notMem_zero n)

end steps

section runs
variable {prog : C → Body C} [DecidableEq C] {threads : Nat} {useCaller : Bool} {caller : Int}

/-- There is a worker, and `c` has been scheduled as callback `n`. -/
structure Scheduled (threads : Nat) (useCaller : Bool) (caller : Int) (prog : C → Body C)
    (n : Nat) (c : C) (p : State (Cont C) × Record C) : Prop where
  reachable : (recorded prog threads useCaller caller).Reachable p
  workers : 0 < p.1.nworkers
  job : p.2.jobs[n]? = some c

/-- Callback `n` has performed its script. -/
def Ended (prog : C → Body C) (n : Nat) (c : C) (p : State (Cont C) × Record C) : Prop :=
  performed (p.2.log.map fun e => (e.tag, e.ev)) n = (prog c).script

theorem nworkers_mono {K : Type} {P : Prog K} {s t : State K} {l : Label K} (h : Move P s l t) :
    s.nworkers ≤ t.nworkers := by
  cases h with
  | owner _ hf => exact hf.grow
  | _ => exact Nat.le_refl _

/-- The premises of the leads-to rule for callback `n`. -/
theorem helpful_callback (hthreads : 0 < threads) (n : Nat) (c : C) :
    Helpful (recorded prog threads useCaller caller) Label.party
      (Scheduled threads useCaller caller prog n c) (Ended prog n c) (fun p => p.1.server n)
      fun p => p.1.farness n where
  keeps := by
    rintro ⟨s, r⟩ l ⟨t, r'⟩ h hstep
    obtain ⟨-, hnext⟩ := System.restrict_step.mp hstep
    obtain ⟨hnext, rfl⟩ := System.withHistory_step.mp hnext
    have hlt := (List.getElem?_eq_some_iff.mp h.job).1
    refine ⟨h.reachable.step l hstep,
      Nat.lt_of_lt_of_le h.workers (nworkers_mono (step_move hnext).2), ?_⟩
    show (r.jobs ++ l.submitted)[n]? = some c
    rw [List.getElem?_append_left hlt]
    exact h.job
  enabled := by
    rintro ⟨s, r⟩ h hleft
    obtain ⟨v, hv, hpc⟩ := server_some (draining_reachable hthreads _ h.reachable)
      (orderliness_reachable _ h.reachable).tracks h.workers h.job hleft
    show System.Enabled _ _ (s.server n) _
    rw [State.server, hv]
    exact (flawless_reachable hthreads _ h.reachable).worker_enabled hpc
  down := by
    rintro ⟨s, r⟩ l ⟨t, r'⟩ h hleft hstep
    have hflawless := flawless_reachable hthreads _ h.reachable
    obtain ⟨v, hv, -⟩ := server_some (draining_reachable hthreads _ h.reachable)
      (orderliness_reachable _ h.reachable).tracks h.workers h.job hleft
    obtain ⟨hord, hstep⟩ := System.restrict_step.mp hstep
    have hm : Move (callbacks prog) s l t := (step_move (System.withHistory_step.mp hstep).1).2
    have hlt : n < r.jobs.length := (List.getElem?_eq_some_iff.mp h.job).1
    right
    show t.farness n < s.farness n ∨ t.farness n = s.farness n ∧ t.server n = s.server n
      ∧ l.party ≠ some (s.server n)
    have stays :
        t.farness n = s.farness n ∧ t.server? n = some v → l.party ≠ some (.worker v) →
        t.farness n < s.farness n ∨ t.farness n = s.farness n ∧ t.server n = s.server n
          ∧ l.party ≠ some (s.server n) := by
      rintro ⟨hfar, hv'⟩ hparty
      rw [State.server, State.server, hv, hv']
      exact .inr ⟨hfar, rfl, hparty⟩
    have worker : ∀ w, l.ofWorker w → t.farness n < s.farness n ∨ t.farness n = s.farness n
        ∧ t.server n = s.server n ∧ l.party ≠ some (s.server n) := by
      intro w hl
      rcases hflawless.serves_down hord hlt hl hm hv with hdown | ⟨hfar, hv', hne⟩
      · exact .inl hdown
      · refine stays ⟨hfar, hv'⟩ ?_
        rw [Label.party_ofWorker hl]
        rintro ⟨⟩
        exact hne rfl
    have owner : OwnerFrame s t → l.party ≠ some (.worker v) → _ := fun hf hparty =>
      stays (hf.farness hv) hparty
    cases l with
    | work w => exact worker w rfl
    | act w a => exact worker w rfl
    | ext a =>
      obtain ⟨-, k, rfl⟩ := orderly_ext hord
      obtain ⟨-, -, hk⟩ := hord
      cases hm with
      | fails hf => cases hf
      | owner hl _ => rcases hl with ⟨_, hl⟩ | hl | hl <;> cases hl
      | extSchedule _ =>
        -- a further callback, with a number of its own
        refine stays (farness_grow [⟨.cb k, -1⟩] rfl rfl (fun e he => ?_) (Nat.le_refl _)
          (fun _ _ => rfl) (fun w h₁ h₂ => absurd h₂ (Nat.not_lt_of_le h₁)) hv) nofun
        rw [List.mem_singleton.mp he]
        intro hmem
        have hmem : n ∈ ({k.tag} : Multiset Nat) := hmem
        rw [Multiset.mem_singleton, hk] at hmem
        exact Nat.ne_of_lt hlt hmem
    | start tids | stop | ctl =>
      cases hm with
      | fails hf => exact absurd hf (hflawless.not_fails _ _)
      | owner _ hf => exact owner hf nofun

/-- For any number of workers, any callbacks, scheduled by each other and from outside
    without an end, and any just interleaving, with `stop` or without it: once there is a
    worker, every callback that has been scheduled is performed to its end. -/
theorem every_callback_ends (hthreads : 0 < threads)
    {run : Run (recorded prog threads useCaller caller)}
    (hjust : run.Just Label.party) {m : Nat} (hworkers : 0 < (run.states m).1.nworkers)
    {n : Nat} {c : C} (hjob : (run.states m).2.jobs[n]? = some c) :
    ∃ m', m ≤ m' ∧
      performed ((run.states m').2.log.map fun e => (e.tag, e.ev)) n = (prog c).script :=
  (helpful_callback hthreads n c).reaches hjust ⟨run.reachable m, hworkers, hjob⟩

end runs

/-- In the run `stoppedEarly` callback 0 comes to its end when it has been scheduled, before
    `stop` is called. -/
theorem every_callback_ends_early :
    ∃ run : Run (recorded parentAndChild 2 true 5), (run.states 2).1.nworkers = 1 ∧
      (run.states 2).1.autoStop = false ∧ (run.states 2).2.jobs = [0] ∧
      ∃ m, 2 ≤ m ∧
        performed ((run.states m).2.log.map fun e => (e.tag, e.ev)) 0
          = (parentAndChild 0).script := by
  let run := Run.finite (recorded parentAndChild 2 true 5) stoppedEarly stoppedEarly_runs
  have hworkers : (run.states 2).1.nworkers = 1 := by decide
  have hjobs : (run.states 2).2.jobs = [0] := by decide
  refine ⟨run, hworkers, by decide, hjobs,
    every_callback_ends (by decide) stoppedEarly_just ?_ ?_⟩
  · rw [hworkers]
    exact Nat.one_pos
  · rw [hjobs]
    rfl

end Gwn.Scheduler
