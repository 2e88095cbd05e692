import Gwn.Framework.Refinement
import Gwn.Scheduler.Tidy

/-! # A FIFO round-robin machine

    What a scheduler with one worker is for: tasks take turns in the order in which they
    got into a queue. The machine takes the head of the queue, lets it run a segment, puts
    what the segment schedules at the end of the queue as it comes, and the task itself
    when it has yielded `READY`. It knows neither workers nor how fibers are kept. -/

namespace Gwn.Scheduler

open LTS

variable {K : Type} {P : Prog K}

/-- Whose turn it is. -/
inductive Turn where
  | none
  /-- Fiber `f` runs a segment. -/
  | running (f : Nat)
  /-- Fiber `f` has yielded `READY`. -/
  | ready (f : Nat)
deriving DecidableEq

structure Fifo (K : Type) where
  queue : List (Task K)
  /-- Where a fiber goes on; `none` if it has ended, or there is none of this name. -/
  code : Nat → Option (Code K)
  turn : Turn

/-- A segment is what is between a `begin` and the next. -/
inductive FifoLabel (K : Type) where
  /-- The head of the queue begins a segment, as fiber `f`. -/
  | begin (f : Nat)
  /-- The segment does `a`, the last time to end. -/
  | act (a : Act K)
  /-- The task that has yielded `READY` gets to the end of the queue. -/
  | requeue
  /-- Somebody else does `a`. -/
  | outside (a : Act K)
deriving DecidableEq

/-! ### Steps -/

namespace Fifo

def initial : Fifo K :=
  { queue := [], code := fun _ => none, turn := .none }

def setCode (m : Fifo K) (f : Nat) (c : Option (Code K)) : Fifo K :=
  { m with code := Function.update m.code f c }

def fibers (m : Fifo K) : List Nat :=
  m.queue.filterMap Task.fiber?

/-- Fiber `f` is new or held: it can go on, and neither is queued nor has its turn. -/
def Waiting (m : Fifo K) (f : Nat) : Prop :=
  (m.code f).isSome ∧ f ∉ m.fibers ∧ m.turn ≠ .running f ∧ m.turn ≠ .ready f

instance (m : Fifo K) (f : Nat) : Decidable (m.Waiting f) :=
  inferInstanceAs (Decidable (_ ∧ _ ∧ _ ∧ _))

/-- Somebody schedules a task, or makes a fiber. -/
def does (m : Fifo K) : Act K → Option (Fifo K)
  | .schedule (some (.fiber f)) _ =>
    if m.Waiting f then some { m with queue := m.queue ++ [.fiber f] } else none
  | .schedule (some (.cb k)) _ => some { m with queue := m.queue ++ [.cb k] }
  | .schedule none _ => some m
  | .newFiber k f => if (m.code f).isNone then some (m.setCode f (some (.user k))) else none
  | _ => none

/-- A callback begins under a name that is not in use. -/
def beginStep (m : Fifo K) (f : Nat) : Option (Fifo K) :=
  match m.turn, m.queue with
  | .none, .fiber g :: q => if g = f then some { m with queue := q, turn := .running f } else none
  | .none, .cb k :: q =>
    if (m.code f).isNone then
      some { m.setCode f (some (.user k)) with queue := q, turn := .running f }
    else none
  | _, _ => none

/-- The segment of `f`, which is at `c`, does `a`. -/
def actStep (P : Prog K) (m : Fifo K) (f : Nat) (c : Code K) (a : Act K) : Option (Fifo K) :=
  (c.resume P a).bind fun c' =>
    match a with
    | .schedule _ _ | .newFiber _ _ => (m.setCode f (some c')).does a
    | .stopping v => if v then none else some (m.setCode f (some c'))
    | .yieldToReady => some { m.setCode f (some c') with turn := .ready f }
    | .yieldToHold => some { m.setCode f (some c') with turn := .none }
    | .ret | .throw => some { m.setCode f none with turn := .none }

def step (P : Prog K) (m : Fifo K) : FifoLabel K → Option (Fifo K)
  | .begin f => m.beginStep f
  | .act a =>
    match m.turn with
    | .running f => (m.code f).bind fun c => m.actStep P f c a
    | _ => none
  | .requeue =>
    match m.turn with
    | .ready f => some { m with queue := m.queue ++ [.fiber f], turn := .none }
    | _ => none
  | .outside a => m.does a

end Fifo

def fifo (P : Prog K) : System (Fifo K) (FifoLabel K) where
  init := .initial
  step := Fifo.step P

/-! ### No fiber twice -/

namespace Fifo

/-- No fiber is queued twice or in its own turn, and none that has its turn to come has
    ended. -/
structure Sound (m : Fifo K) : Prop where
  nodup : m.fibers.Nodup
  queued : ∀ f ∈ m.fibers, (m.code f).isSome ∧ m.turn ≠ .running f ∧ m.turn ≠ .ready f
  turn : ∀ f, m.turn = .running f ∨ m.turn = .ready f → (m.code f).isSome

variable {m m' : Fifo K}

theorem sound_initial : (initial : Fifo K).Sound where
  nodup := List.nodup_nil
  queued f hf := by cases hf
  turn f hf := by rcases hf with hf | hf <;> cases hf

theorem isSome_setCode {f g : Nat} {c : Code K} (h : (m.code g).isSome) :
    ((m.setCode f (some c)).code g).isSome := by
  show (Function.update m.code f (some c) g).isSome
  by_cases hg : g = f
  · rw [hg, Function.update_self]
    rfl
  · rwa [Function.update_of_ne hg]

/-- A fiber goes on, or a new one is made. -/
theorem Sound.setCode (h : m.Sound) (f : Nat) (c : Code K) : (m.setCode f (some c)).Sound where
  nodup := h.nodup
  queued g hg := ⟨isSome_setCode (h.queued g hg).1, (h.queued g hg).2⟩
  turn g hg := isSome_setCode (h.turn g hg)

/-- A fiber that is not queued ends, or leaves the turn to others. -/
theorem Sound.leave (h : m.Sound) {f : Nat} {o : Option (Code K)} (hturn : m.turn = .running f) :
    Sound { m.setCode f o with turn := .none } where
  nodup := h.nodup
  queued g hg := by
    have hne : g ≠ f := by
      rintro rfl
      exact (h.queued g hg).2.1 hturn
    refine ⟨?_, nofun, nofun⟩
    show (Function.update m.code f o g).isSome
    rw [Function.update_of_ne hne]
    exact (h.queued g hg).1
  turn g hg := by rcases hg with hg | hg <;> cases hg

/-- Fiber `f`, which is not queued, gets to the end of the queue and is not in turn then. -/
theorem Sound.push {f : Nat} {t : Turn} (h : m.Sound) (hcode : (m.code f).isSome)
    (hf : f ∉ m.fibers) (ht : t = m.turn ∨ t = .none) (hrun : t ≠ .running f)
    (hready : t ≠ .ready f) :
    Sound { m with queue := m.queue ++ [.fiber f], turn := t } := by
  have hfibers : (m.queue ++ [Task.fiber f]).filterMap Task.fiber? = m.fibers ++ [f] := by
    rw [List.filterMap_append]
    rfl
  refine ⟨?_, fun g hg => ?_, fun g hg => ?_⟩
  · show ((m.queue ++ [Task.fiber f]).filterMap Task.fiber?).Nodup
    rw [hfibers]
    apply h.nodup.append (List.nodup_singleton f)
    intro g hg hgf
    rw [List.mem_singleton.mp hgf] at hg
    exact hf hg
  · have hg : g ∈ (m.queue ++ [Task.fiber f]).filterMap Task.fiber? := hg
    rw [hfibers] at hg
    rcases List.mem_append.mp hg with hg | hg
    · obtain ⟨hsome, hne⟩ := h.queued g hg
      refine ⟨hsome, ?_⟩
      rcases ht with rfl | rfl
      · exact hne
      · exact ⟨nofun, nofun⟩
    · rw [List.mem_singleton.mp hg]
      exact ⟨hcode, hrun, hready⟩
  · rcases ht with rfl | rfl
    · exact h.turn g hg
    · rcases hg with hg | hg <;> cases hg

theorem Sound.does (h : m.Sound) {a : Act K} (hstep : m.does a = some m') : m'.Sound := by
  unfold Fifo.does at hstep
  split at hstep
  · next f thread =>
    split at hstep <;> cases hstep
    next hwait =>
    obtain ⟨hcode, hf, hrun, hready⟩ := hwait
    exact h.push hcode hf (.inl rfl) hrun hready
  · next k thread =>
    cases hstep
    have hfibers : (m.queue ++ [Task.cb k]).filterMap Task.fiber? = m.fibers := by
      rw [List.filterMap_append]
      exact List.append_nil _
    refine ⟨?_, fun g hg => h.queued g ?_, h.turn⟩
    · show ((m.queue ++ [Task.cb k]).filterMap Task.fiber?).Nodup
      rw [hfibers]
      exact h.nodup
    · have hg : g ∈ (m.queue ++ [Task.cb k]).filterMap Task.fiber? := hg
      rwa [hfibers] at hg
  · cases hstep
    exact h
  · split at hstep <;> cases hstep
    exact h.setCode _ _
  · cases hstep

theorem Sound.beginStep (h : m.Sound) {f : Nat} (hstep : m.beginStep f = some m') : m'.Sound := by
  unfold Fifo.beginStep at hstep
  split at hstep
  · next g q hturn hqueue =>
    split at hstep <;> cases hstep
    next hgf =>
    subst hgf
    have hfibers : m.fibers = g :: q.filterMap Task.fiber? := by
      rw [fibers, hqueue]
      rfl
    obtain ⟨hnew, hnodup⟩ := List.nodup_cons.mp (hfibers ▸ h.nodup)
    refine ⟨hnodup, fun i hi => ?_, fun i hi => ?_⟩
    · have hmem : i ∈ m.fibers := hfibers ▸ List.mem_cons_of_mem g hi
      refine ⟨(h.queued i hmem).1, ?_, nofun⟩
      intro heq
      cases heq
      exact hnew hi
    · obtain rfl : g = i := by
        rcases hi with hi | hi
        · exact Turn.running.inj hi
        · cases hi
      exact (h.queued g (hfibers ▸ List.mem_cons_self)).1
  · next k q hturn hqueue =>
    split at hstep <;> cases hstep
    next hnone =>
    have hfibers : m.fibers = q.filterMap Task.fiber? := by
      rw [fibers, hqueue]
      rfl
    have hset := h.setCode f (.user k)
    have hnodup : (q.filterMap Task.fiber?).Nodup := hfibers ▸ h.nodup
    refine ⟨hnodup, fun i hi => ?_, fun i hi => ?_⟩
    · have hmem : i ∈ m.fibers := hfibers ▸ hi
      refine ⟨(hset.queued i hmem).1, ?_, nofun⟩
      intro heq
      cases heq
      -- nothing that is queued has ended
      have hsome := (h.queued f hmem).1
      rw [Option.isNone_iff_eq_none.mp hnone] at hsome
      cases hsome
    · obtain rfl : f = i := by
        rcases hi with hi | hi
        · exact Turn.running.inj hi
        · cases hi
      show (Function.update m.code f (some (.user k)) f).isSome
      rw [Function.update_self]
      rfl
  · cases hstep

theorem Sound.actStep (h : m.Sound) {f : Nat} {c : Code K} {a : Act K} (hturn : m.turn = .running f)
    (hstep : m.actStep P f c a = some m') : m'.Sound := by
  obtain ⟨c', -, hstep⟩ := Option.bind_eq_some_iff.mp hstep
  have hset := h.setCode f c'
  cases a with
  | schedule fc thread => exact hset.does hstep
  | newFiber k g => exact hset.does hstep
  | stopping v =>
    cases v <;> cases hstep
    exact hset
  | yieldToReady =>
    cases hstep
    refine ⟨h.nodup, fun g hg => ?_, fun g hg => ?_⟩
    · refine ⟨(hset.queued g hg).1, nofun, ?_⟩
      intro heq
      cases heq
      exact (h.queued f hg).2.1 hturn
    · obtain rfl : f = g := by
        rcases hg with hg | hg
        · cases hg
        · exact Turn.ready.inj hg
      exact hset.turn f (.inl hturn)
  | yieldToHold =>
    cases hstep
    exact h.leave hturn
  | ret =>
    cases hstep
    exact h.leave hturn
  | throw =>
    cases hstep
    exact h.leave hturn

theorem Sound.step (h : m.Sound) {l : FifoLabel K} (hstep : m.step P l = some m') : m'.Sound := by
  cases l with
  | begin f => exact h.beginStep hstep
  | act a =>
    simp only [Fifo.step] at hstep
    split at hstep
    · next f hturn =>
      obtain ⟨c, -, hstep⟩ := Option.bind_eq_some_iff.mp hstep
      exact h.actStep hturn hstep
    · cases hstep
  | requeue =>
    simp only [Fifo.step] at hstep
    split at hstep
    · next f hturn =>
      cases hstep
      have hf : f ∉ m.fibers := fun hmem => (h.queued f hmem).2.2 hturn
      exact h.push (h.turn f (.inr hturn)) hf (.inr rfl) nofun nofun
    · cases hstep
  | outside a => exact h.does hstep

/-- No fiber takes two turns at once, however long the machine runs. -/
theorem Sound.exec (h : m.Sound) {ls : List (FifoLabel K)} (hrun : (fifo P).exec m ls = some m') :
    m'.Sound := by
  induction ls generalizing m with
  | nil =>
    cases hrun
    exact h
  | cons l ls ih =>
    obtain ⟨m₁, hstep, hrest⟩ := Option.bind_eq_some_iff.mp hrun
    exact ih (h.step hstep) hrest

end Fifo

end Gwn.Scheduler
