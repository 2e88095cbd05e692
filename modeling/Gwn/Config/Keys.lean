import Gwn.Framework.RWLock
import Gwn.Framework.System
import Gwn.Framework.Total

/-! # The keys of listeners

    `ConfigVar<T>::addListener` (gwn/config.h) takes the keys of listeners from a counter
    that all variables of one type share, under a lock that each variable has for
    itself. It looks at the counter three times: to increment it, to store the
    listener, and to return the key. Every read and every write of the counter is a
    step here.

    - `PC`, `State`, `step`: the threads that call `addListener` and `delListener`
    - `Own`: the listeners are there under the keys that have been returned
    - `not_own_overlap`: calls for two variables, one between the store and the return of
      the other
    - `own_when_apart`: it holds when no two increments overlap, and nobody writes the counter
      between the store and the return of another call -/

namespace Gwn.Config.Keys

open LTS

variable {Obj Cb : Type} [DecidableEq Obj]

/-! ### Threads -/

/-- A listener, told from others by the number of the call that adds it. -/
structure Listener (Cb : Type) where
  cb : Cb
  call : Nat

/-- Where `addListener` is, once it has the lock. -/
inductive Phase where
  /-- Before `++s_fun_id`. -/
  | locked
  /-- In the middle of `++s_fun_id`, which has read `id`. -/
  | loaded (id : UInt64)
  /-- Before `m_cbs[s_fun_id] = cb`. -/
  | incremented
  /-- Before `return s_fun_id`; the listener is under `key`. -/
  | stored (key : UInt64)
  /-- Before the lock is released. -/
  | returning

/-- Where a thread is: outside, or in a call on a variable, whose lock it has. -/
inductive PC (Obj Cb : Type) where
  | idle
  | adding (o : Obj) (li : Listener Cb) (phase : Phase)
  /-- `delListener(key)`, once it has the lock. -/
  | deleting (o : Obj) (key : UInt64)

/-- How `m_mutex` of the variable `o` is held. -/
def PC.mode (o : Obj) : PC Obj Cb → Mode
  | .idle => .free
  | .adding o' _ _ | .deleting o' _ => if o' = o then .write else .free

/-- All variables of one type share `s_fun_id`; each has its own map and its own lock. -/
structure State (Obj Cb : Type) where
  /-- `s_fun_id`. -/
  funId : UInt64
  /-- `m_cbs` of each variable. -/
  cbs : Obj → UInt64 → Option (Listener Cb)
  pc : Nat → PC Obj Cb
  nthreads : Nat
  /-- How many calls of `addListener` there have been. -/
  calls : Nat

/-- What can happen next. -/
inductive Label (Obj Cb : Type) where
  /-- Thread `t` calls `o->addListener(cb)` and gets the lock. -/
  | addListener (t : Nat) (o : Obj) (cb : Cb)
  | delListener (t : Nat) (o : Obj) (key : UInt64)
  /-- Thread `t` takes its next step. -/
  | step (t : Nat)

def State.setPC (s : State Obj Cb) (t : Nat) (pc : PC Obj Cb) : State Obj Cb :=
  { s with pc := Function.update s.pc t pc }

/-- `m_cbs[key]` of the variable `o` becomes `li`, or is erased. -/
def State.setCb (s : State Obj Cb) (o : Obj) (key : UInt64) (li : Option (Listener Cb)) :
    State Obj Cb :=
  { s with cbs := Function.update s.cbs o (Function.update (s.cbs o) key li) }

/-- One access to the counter or to the map, or the end of the call. -/
def threadStep (s : State Obj Cb) (t : Nat) : Option (State Obj Cb) :=
  match s.pc t with
  | .idle => none
  | .adding o li .locked => some (s.setPC t (.adding o li (.loaded s.funId)))
  | .adding o li (.loaded id) =>
    some ({ s with funId := id + 1 }.setPC t (.adding o li .incremented))
  | .adding o li .incremented =>
    some ((s.setCb o s.funId (some li)).setPC t (.adding o li (.stored s.funId)))
  | .adding o li (.stored _) => some (s.setPC t (.adding o li .returning))
  | .adding _ _ .returning => some (s.setPC t .idle)
  | .deleting o key => some ((s.setCb o key none).setPC t .idle)

/-- A call begins when its thread is outside and gets the lock of the variable. -/
def step (s : State Obj Cb) : Label Obj Cb → Option (State Obj Cb)
  | .addListener t o cb =>
    match s.pc t with
    | .idle =>
      if t < s.nthreads ∧ MayLock (PC.mode o) s.nthreads s.pc .write then
        some ({ s with calls := s.calls + 1 }.setPC t (.adding o ⟨cb, s.calls⟩ .locked))
      else none
    | _ => none
  | .delListener t o key =>
    match s.pc t with
    | .idle =>
      if t < s.nthreads ∧ MayLock (PC.mode o) s.nthreads s.pc .write then
        some (s.setPC t (.deleting o key))
      else none
    | _ => none
  | .step t => threadStep s t

/-- A listener with the variable it has been added to and the key that was returned. -/
structure Registration (Obj Cb : Type) where
  obj : Obj
  key : UInt64
  listener : Listener Cb

/-- The listeners whose keys have been returned, and that have not been deleted since. -/
abbrev Registered (Obj Cb : Type) := List (Registration Obj Cb)

/-- A key is returned as the counter stands then; `delListener` ends what it names. -/
def record (h : Registered Obj Cb) (s : State Obj Cb) : Label Obj Cb → Registered Obj Cb
  | .step t =>
    match s.pc t with
    | .adding o li (.stored _) => ⟨o, s.funId, li⟩ :: h
    | .deleting o key => h.filter fun r => ¬ (r.obj = o ∧ r.key = key)
    | _ => h
  | _ => h

/-- `n` threads, and no listener yet. -/
def listening (Obj Cb : Type) [DecidableEq Obj] (n : Nat) :
    System (State Obj Cb × Registered Obj Cb) (Label Obj Cb) :=
  System.withHistory
    { init :=
      { funId := 0, cbs := fun _ _ => none, pc := fun _ => .idle, nthreads := n, calls := 0 }
      step := step } [] record

/-! ### What is promised -/

/-- The listener of each call is stored under the key that the call has returned, until
    the key is deleted, and besides these there are only the listeners of calls that
    have not returned yet. -/
structure Own (p : State Obj Cb × Registered Obj Cb) : Prop where
  stored : ∀ r ∈ p.2, p.1.cbs r.obj r.key = some r.listener
  entries : ∀ o key li, p.1.cbs o key = some li →
    ⟨o, key, li⟩ ∈ p.2 ∨ ∃ t, p.1.pc t = .adding o li (.stored key)

/-- The counter is not at a key in use when a listener is stored, and is still where it
    was then when the key is returned. This is what a step needs to keep `Own`; what
    calls have to do for it is `Apart` below. -/
def Kept (p : State Obj Cb × Registered Obj Cb) : Label Obj Cb → Prop
  | .step t =>
    match p.1.pc t with
    | .adding o _ .incremented => p.1.cbs o p.1.funId = none
    | .adding _ _ (.stored key) => p.1.funId = key
    | _ => True
  | _ => True

/-! ### The invariant -/

/-- What holds besides as long as the counter is kept: the locks, and that each call has
    a listener of its own. -/
structure Inv (p : State Obj Cb × Registered Obj Cb) : Prop extends Own p where
  locked : ∀ o, Locked (PC.mode o) p.1.nthreads p.1.pc
  pending : ∀ t o li key, p.1.pc t = .adding o li (.stored key) → p.1.cbs o key = some li
  unreturned : ∀ t o li phase, p.1.pc t = .adding o li phase → phase ≠ .returning →
    ∀ r ∈ p.2, r.listener ≠ li
  distinct : ∀ t t' o o' li phase phase', p.1.pc t = .adding o li phase →
    p.1.pc t' = .adding o' li phase' → t = t'
  called : ∀ t o li phase, p.1.pc t = .adding o li phase → li.call < p.1.calls
  counted : ∀ r ∈ p.2, r.listener.call < p.1.calls

section inv
variable {s s' : State Obj Cb} {h : Registered Obj Cb} {t : Nat}

theorem Inv.lt (hi : Inv (s, h)) {o : Obj} (hmode : (s.pc t).mode o = .write) : t < s.nthreads := by
  by_contra hle
  have hfree := (hi.locked o).outside t (Nat.le_of_not_lt hle)
  rw [hmode] at hfree
  cases hfree

/-- Two threads that have the lock of one variable are the same. -/
theorem Inv.alone (hi : Inv (s, h)) {t' : Nat} {o : Obj} (ht : (s.pc t).mode o = .write)
    (ht' : (s.pc t').mode o = .write) : t' = t := by
  by_contra hne
  have hfree := (hi.locked o).alone ht hne
  rw [ht'] at hfree
  cases hfree

@[simp] theorem mode_adding (o : Obj) (li : Listener Cb) (phase : Phase) :
    (PC.adding o li phase).mode o = .write :=
  if_pos rfl

@[simp] theorem mode_deleting (o : Obj) (key : UInt64) :
    (PC.deleting o key : PC Obj Cb).mode o = .write :=
  if_pos rfl

/-- The locks when a thread that has one goes on with it or releases it. -/
theorem Inv.goOn (hi : Inv (s, h)) {o : Obj} {x : PC Obj Cb} (ht : (s.pc t).mode o = .write)
    (hx : ∀ o', x.mode o' = (s.pc t).mode o' ∨ x.mode o' = .free) :
    ∀ o', Locked (PC.mode o') s.nthreads (Function.update s.pc t x) := by
  intro o'
  refine (hi.locked o').update (hi.lt ht) ?_
  rcases hx o' with hx | hx
  · exact .inl hx
  · exact .inr (.inl hx)

/-- The locks when a thread gets one. -/
theorem Inv.acquire (hi : Inv (s, h)) {o : Obj} {x : PC Obj Cb} (ht : t < s.nthreads)
    (hmay : MayLock (PC.mode o) s.nthreads s.pc .write) (hself : x.mode o = .write)
    (hother : ∀ o', o' ≠ o → x.mode o' = .free) :
    ∀ o', Locked (PC.mode o') s.nthreads (Function.update s.pc t x) := by
  intro o'
  refine (hi.locked o').update ht ?_
  by_cases ho : o' = o
  · subst ho
    rw [hself]
    exact .inr (.inr hmay)
  · exact .inr (.inl (hother o' ho))

omit [DecidableEq Obj] in
/-- A thread is where it was, or it is the one that has moved. -/
theorem pc_cases {x y : PC Obj Cb} {u : Nat} (hu : Function.update s.pc t x u = y) :
    (u ≠ t ∧ s.pc u = y) ∨ (u = t ∧ x = y) := by
  by_cases hut : u = t
  · subst hut
    rw [Function.update_self] at hu
    exact .inr ⟨rfl, hu⟩
  · rw [Function.update_of_ne hut] at hu
    exact .inl ⟨hut, hu⟩

/-- A step that changes neither the listeners nor what has been returned. -/
theorem Inv.quiet (hi : Inv (s, h)) {x : PC Obj Cb} (hpc : s'.pc = Function.update s.pc t x)
    (hcbs : s'.cbs = s.cbs) (hn : s'.nthreads = s.nthreads) (hcalls : s.calls ≤ s'.calls)
    (hlocked : ∀ o, Locked (PC.mode o) s.nthreads (Function.update s.pc t x))
    (hold : ∀ o li key, s.pc t ≠ .adding o li (.stored key))
    (hnew : ∀ o li phase, x = .adding o li phase → (∀ key, phase ≠ .stored key) ∧
      ((∃ phase', s.pc t = .adding o li phase' ∧ phase' ≠ .returning) ∨
        li.call = s.calls ∧ s.calls < s'.calls)) : Inv (s', h) := by
  -- the listener of a thread is the one it had, or a new one
  have hback : ∀ {u o li phase}, s'.pc u = .adding o li phase →
      (u ≠ t ∧ s.pc u = .adding o li phase) ∨ (u = t ∧ x = .adding o li phase) := by
    intro u o li phase hu
    rw [hpc] at hu
    exact pc_cases hu
  refine { stored := ?_, entries := ?_, locked := ?_, pending := ?_, unreturned := ?_,
           distinct := ?_, called := ?_, counted := ?_ }
  · intro r hr
    rw [hcbs]
    exact hi.stored r hr
  · intro o key li hcb
    rw [hcbs] at hcb
    rcases hi.entries o key li hcb with hr | ⟨u, hu⟩
    · exact .inl hr
    · have hut : u ≠ t := by
        rintro rfl
        exact hold o li key hu
      exact .inr ⟨u, by rw [hpc, Function.update_of_ne hut, hu]⟩
  · intro o
    rw [hn, hpc]
    exact hlocked o
  · intro u o li key hu
    rw [hcbs]
    rcases hback hu with ⟨-, hu⟩ | ⟨-, hx⟩
    · exact hi.pending u o li key hu
    · exact absurd rfl ((hnew o li _ hx).1 key)
  · intro u o li phase hu hphase r hr
    rcases hback hu with ⟨-, hu⟩ | ⟨-, hx⟩
    · exact hi.unreturned u o li phase hu hphase r hr
    · rcases (hnew o li phase hx).2 with ⟨phase', ht, hphase'⟩ | ⟨hcall, -⟩
      · exact hi.unreturned t o li phase' ht hphase' r hr
      · rintro rfl
        exact absurd hcall (Nat.ne_of_lt (hi.counted r hr))
  · intro u u' o o' li phase phase' hu hu'
    -- a new listener is none that a thread has
    have hfresh :
        ∀ {v o o' phase phase'}, s.pc v = .adding o li phase → x = .adding o' li phase' →
        v = t := by
      intro v o o' phase phase' hv hx
      rcases (hnew o' li phase' hx).2 with ⟨phase'', ht, -⟩ | ⟨hcall, -⟩
      · exact hi.distinct v t o o' li phase phase'' hv ht
      · exact absurd hcall (Nat.ne_of_lt (hi.called v o li phase hv))
    rcases hback hu with ⟨hut, hu⟩ | ⟨rfl, hx⟩
    · rcases hback hu' with ⟨-, hu'⟩ | ⟨rfl, hx'⟩
      · exact hi.distinct u u' o o' li phase phase' hu hu'
      · exact hfresh hu hx'
    · rcases hback hu' with ⟨-, hu'⟩ | ⟨rfl, -⟩
      · exact (hfresh hu' hx).symm
      · rfl
  · intro u o li phase hu
    rcases hback hu with ⟨-, hu⟩ | ⟨-, hx⟩
    · exact Nat.lt_of_lt_of_le (hi.called u o li phase hu) hcalls
    · rcases (hnew o li phase hx).2 with ⟨phase', ht, -⟩ | ⟨hcall, hlt⟩
      · exact Nat.lt_of_lt_of_le (hi.called t o li phase' ht) hcalls
      · simpa [hcall] using hlt
  · intro r hr
    exact Nat.lt_of_lt_of_le (hi.counted r hr) hcalls

/-- The listeners of the threads when one of them keeps its listener, or has none any more. -/
theorem Inv.keep (hi : Inv (s, h)) {x : PC Obj Cb}
    (hx : ∀ o li phase, x = .adding o li phase → ∃ phase', s.pc t = .adding o li phase') :
    (∀ u u' o o' li phase phase', Function.update s.pc t x u = .adding o li phase →
      Function.update s.pc t x u' = .adding o' li phase' → u = u') ∧
    ∀ u o li phase, Function.update s.pc t x u = .adding o li phase → li.call < s.calls := by
  have hback : ∀ {u o li phase}, Function.update s.pc t x u = .adding o li phase →
      ∃ phase', s.pc u = .adding o li phase' := by
    intro u o li phase hu
    rcases pc_cases hu with ⟨-, hold⟩ | ⟨rfl, hnew⟩
    · exact ⟨phase, hold⟩
    · exact hx o li phase hnew
  constructor
  · intro u u' o o' li phase phase' hu hu'
    obtain ⟨_, hu⟩ := hback hu
    obtain ⟨_, hu'⟩ := hback hu'
    exact hi.distinct u u' o o' li _ _ hu hu'
  · intro u o li phase hu
    obtain ⟨_, hu⟩ := hback hu
    exact hi.called u o li _ hu

@[simp] theorem setCb_self (o : Obj) (key : UInt64) (li : Option (Listener Cb)) :
    (s.setCb o key li).cbs o key = li := by
  simp [State.setCb]

theorem setCb_of_ne {o o' : Obj} {key key' : UInt64} (hne : ¬ (o' = o ∧ key' = key))
    (li : Option (Listener Cb)) : (s.setCb o key li).cbs o' key' = s.cbs o' key' := by
  by_cases ho : o' = o
  · subst ho
    have hkey : key' ≠ key := fun hkey => hne ⟨rfl, hkey⟩
    simp [State.setCb, hkey]
  · simp [State.setCb, ho]

/-- `m_cbs[s_fun_id] = cb`, when there is nothing under that key. -/
theorem Inv.store (hi : Inv (s, h)) {o : Obj} {li : Listener Cb}
    (ht : s.pc t = .adding o li .incremented) (hfree : s.cbs o s.funId = none) :
    Inv ((s.setCb o s.funId (some li)).setPC t (.adding o li (.stored s.funId)), h) := by
  have hself : (s.pc t).mode o = .write := by rw [ht, mode_adding]
  have hx : ∀ o' li' phase, PC.adding o li (.stored s.funId) = .adding o' li' phase →
      ∃ phase', s.pc t = .adding o' li' phase' := by
    intro o' li' phase hx
    cases hx
    exact ⟨_, ht⟩
  obtain ⟨hdistinct, hcalled⟩ := hi.keep hx
  refine { stored := ?_, entries := ?_, locked := ?_, pending := ?_, unreturned := ?_,
           distinct := hdistinct, called := hcalled, counted := hi.counted }
  · intro r hr
    have hr' := hi.stored r hr
    -- what has been returned is under another key
    have hne : ¬ (r.obj = o ∧ r.key = s.funId) := by
      rintro ⟨ho, hkey⟩
      rw [ho, hkey, hfree] at hr'
      cases hr'
    exact (setCb_of_ne hne _).trans hr'
  · intro o' key li' hcb
    have hcb : (s.setCb o s.funId (some li)).cbs o' key = some li' := hcb
    by_cases hsame : o' = o ∧ key = s.funId
    · obtain ⟨rfl, rfl⟩ := hsame
      rw [setCb_self] at hcb
      cases hcb
      exact .inr ⟨t, Function.update_self ..⟩
    · rw [setCb_of_ne hsame] at hcb
      rcases hi.entries o' key li' hcb with hr | ⟨u, hu⟩
      · exact .inl hr
      · have hut : u ≠ t := by
          rintro rfl
          rw [ht] at hu
          cases hu
        exact .inr ⟨u, (Function.update_of_ne hut ..).trans hu⟩
  · exact hi.goOn hself fun o' => .inl (by rw [ht]; rfl)
  · intro u o' li' key hu
    rcases pc_cases hu with ⟨hut, hold⟩ | ⟨rfl, hnew⟩
    · -- no other thread has the lock of `o`
      have hthere : s.pc u = .adding o' li' (.stored key) := hold
      have hne : ¬ (o' = o ∧ key = s.funId) := by
        rintro ⟨rfl, -⟩
        exact hut (hi.alone hself (by rw [hthere, mode_adding]))
      exact (setCb_of_ne hne _).trans (hi.pending u o' li' key hthere)
    · cases hnew
      exact setCb_self ..
  · intro u o' li' phase hu hphase r hr
    rcases pc_cases hu with ⟨-, hold⟩ | ⟨rfl, hnew⟩
    · exact hi.unreturned u o' li' phase hold hphase r hr
    · cases hnew
      exact hi.unreturned u o li .incremented ht (by simp) r hr

/-- `return s_fun_id`, when that is the key the listener is under. -/
theorem Inv.return (hi : Inv (s, h)) {o : Obj} {li : Listener Cb}
    (ht : s.pc t = .adding o li (.stored s.funId)) :
    Inv (s.setPC t (.adding o li .returning), ⟨o, s.funId, li⟩ :: h) := by
  have hself : (s.pc t).mode o = .write := by rw [ht, mode_adding]
  have hx : ∀ o' li' phase, PC.adding o li .returning = .adding o' li' phase →
      ∃ phase', s.pc t = .adding o' li' phase' := by
    intro o' li' phase hx
    cases hx
    exact ⟨_, ht⟩
  obtain ⟨hdistinct, hcalled⟩ := hi.keep hx
  refine { stored := ?_, entries := ?_, locked := ?_, pending := ?_, unreturned := ?_,
           distinct := hdistinct, called := hcalled, counted := ?_ }
  · intro r hr
    rcases List.mem_cons.mp hr with rfl | hr
    · exact hi.pending t o li s.funId ht
    · exact hi.stored r hr
  · intro o' key li' hcb
    rcases hi.entries o' key li' hcb with hr | ⟨u, hu⟩
    · exact .inl (List.mem_cons_of_mem _ hr)
    · by_cases hut : u = t
      · -- the listener of this call, which is no longer in progress
        subst hut
        rw [ht] at hu
        cases hu
        exact .inl List.mem_cons_self
      · exact .inr ⟨u, (Function.update_of_ne hut ..).trans hu⟩
  · exact hi.goOn hself fun o' => .inl (by rw [ht]; rfl)
  · intro u o' li' key hu
    rcases pc_cases hu with ⟨-, hold⟩ | ⟨-, hnew⟩
    · exact hi.pending u o' li' key hold
    · cases hnew
  · intro u o' li' phase hu hphase r hr
    rcases pc_cases hu with ⟨hut, hold⟩ | ⟨-, hnew⟩
    · rcases List.mem_cons.mp hr with rfl | hr
      · -- the listener that is returned is that of `t` alone
        rintro rfl
        exact hut (hi.distinct u t o' o li phase _ hold ht)
      · exact hi.unreturned u o' li' phase hold hphase r hr
    · cases hnew
      exact absurd rfl hphase
  · intro r hr
    rcases List.mem_cons.mp hr with rfl | hr
    · exact hi.called t o li _ ht
    · exact hi.counted r hr

/-- `m_cbs.erase(key)`. -/
theorem Inv.erase (hi : Inv (s, h)) {o : Obj} {key : UInt64} (ht : s.pc t = .deleting o key) :
    Inv ((s.setCb o key none).setPC t .idle, h.filter fun r => ¬ (r.obj = o ∧ r.key = key)) := by
  have hself : (s.pc t).mode o = .write := by rw [ht, mode_deleting]
  have hx : ∀ o' li' phase, (PC.idle : PC Obj Cb) = .adding o' li' phase →
      ∃ phase', s.pc t = .adding o' li' phase' := by
    intro o' li' phase hx
    cases hx
  have hback :
      ∀ {u : Nat} {o' li' phase}, Function.update s.pc t PC.idle u = .adding o' li' phase →
      u ≠ t ∧ s.pc u = .adding o' li' phase := by
    intro u o' li' phase hu
    rcases pc_cases hu with hold | ⟨-, hnew⟩
    · exact hold
    · cases hnew
  obtain ⟨hdistinct, hcalled⟩ := hi.keep hx
  refine { stored := ?_, entries := ?_, locked := ?_, pending := ?_, unreturned := ?_,
           distinct := hdistinct, called := hcalled, counted := ?_ }
  · intro r hr
    obtain ⟨hr, hne⟩ := List.mem_filter.mp hr
    exact (setCb_of_ne (of_decide_eq_true hne) _).trans (hi.stored r hr)
  · intro o' key' li' hcb
    have hcb : (s.setCb o key none).cbs o' key' = some li' := hcb
    have hne : ¬ (o' = o ∧ key' = key) := by
      rintro ⟨rfl, rfl⟩
      rw [setCb_self] at hcb
      cases hcb
    rw [setCb_of_ne hne] at hcb
    rcases hi.entries o' key' li' hcb with hr | ⟨u, hu⟩
    · exact .inl (List.mem_filter.mpr ⟨hr, decide_eq_true hne⟩)
    · have hut : u ≠ t := by
        rintro rfl
        rw [ht] at hu
        cases hu
      exact .inr ⟨u, (Function.update_of_ne hut ..).trans hu⟩
  · exact hi.goOn hself fun o' => .inr rfl
  · intro u o' li' key' hu
    obtain ⟨hut, hold⟩ := hback hu
    have hne : ¬ (o' = o ∧ key' = key) := by
      rintro ⟨rfl, -⟩
      exact hut (hi.alone hself (by rw [hold, mode_adding]))
    exact (setCb_of_ne hne _).trans (hi.pending u o' li' key' hold)
  · intro u o' li' phase hu hphase r hr
    obtain ⟨-, hu⟩ := hback hu
    exact hi.unreturned u o' li' phase hu hphase r (List.mem_filter.mp hr).1
  · intro r hr
    exact hi.counted r (List.mem_filter.mp hr).1

end inv

/-! ### Runs -/

section runs
variable {n : Nat}

theorem inv_init : Inv (listening Obj Cb n).init := by
  have hidle :
      ∀ {o : Obj} {li : Listener Cb} {phase}, ¬ (PC.idle = PC.adding o li phase) := by simp
  refine { stored := ?_, entries := ?_, locked := ?_, pending := ?_, unreturned := ?_,
           distinct := ?_, called := ?_, counted := ?_ }
  · intro r hr
    cases hr
  · intro o key li hcb
    cases hcb
  · intro o
    exact ⟨fun _ _ => rfl, fun _ _ _ => rfl⟩
  · intro t o li key ht
    exact absurd ht hidle
  · intro t o li phase ht
    exact absurd ht hidle
  · intro t t' o o' li phase phase' ht
    exact absurd ht hidle
  · intro t o li phase ht
    exact absurd ht hidle
  · intro r hr
    cases hr

theorem inv_step {p p' : State Obj Cb × Registered Obj Cb} {lab : Label Obj Cb} (hi : Inv p)
    (hkept : Kept p lab) (hstep : (listening Obj Cb n).step p lab = some p') : Inv p' := by
  obtain ⟨s, h⟩ := p
  obtain ⟨s', h'⟩ := p'
  obtain ⟨hstep, rfl⟩ := System.withHistory_step.mp hstep
  have hstep : step s lab = some s' := hstep
  cases lab with
  | addListener t o cb =>
    simp only [step] at hstep
    cases hpc : s.pc t with
    | idle =>
      rw [hpc] at hstep
      obtain ⟨⟨ht, hmay⟩, hs'⟩ := Option.ite_none_right_eq_some.mp hstep
      cases hs'
      refine hi.quiet rfl rfl rfl (Nat.le_succ _)
        (hi.acquire ht hmay (mode_adding ..) fun o' ho => if_neg (Ne.symm ho)) (by simp [hpc]) ?_
      intro o' li phase hx
      cases hx
      exact ⟨by simp, .inr ⟨rfl, Nat.lt_succ_self _⟩⟩
    | _ =>
      rw [hpc] at hstep
      cases hstep
  | delListener t o key =>
    simp only [step] at hstep
    cases hpc : s.pc t with
    | idle =>
      rw [hpc] at hstep
      obtain ⟨⟨ht, hmay⟩, hs'⟩ := Option.ite_none_right_eq_some.mp hstep
      cases hs'
      exact hi.quiet rfl rfl rfl (Nat.le_refl _)
        (hi.acquire ht hmay (mode_deleting ..) fun o' ho => if_neg (Ne.symm ho)) (by simp [hpc])
        (by simp)
    | _ =>
      rw [hpc] at hstep
      cases hstep
  | step t =>
    simp only [step, threadStep, record, Kept] at hstep hkept ⊢
    cases hpc : s.pc t with
    | idle =>
      rw [hpc] at hstep
      cases hstep
    | deleting o key =>
      rw [hpc] at hstep
      cases hstep
      exact hi.erase hpc
    | adding o li phase =>
      have hself : (s.pc t).mode o = .write := by rw [hpc, mode_adding]
      cases phase with
      | locked =>
        rw [hpc] at hstep
        cases hstep
        refine hi.quiet rfl rfl rfl (Nat.le_refl _)
          (hi.goOn hself fun o' => .inl (by rw [hpc]; rfl)) (by simp [hpc]) ?_
        intro o' li' phase hx
        cases hx
        exact ⟨by simp, .inl ⟨_, hpc, by simp⟩⟩
      | loaded id =>
        rw [hpc] at hstep
        cases hstep
        refine hi.quiet rfl rfl rfl (Nat.le_refl _)
          (hi.goOn hself fun o' => .inl (by rw [hpc]; rfl)) (by simp [hpc]) ?_
        intro o' li' phase hx
        cases hx
        exact ⟨by simp, .inl ⟨_, hpc, by simp⟩⟩
      | incremented =>
        rw [hpc] at hstep hkept
        cases hstep
        exact hi.store hpc hkept
      | stored key =>
        rw [hpc] at hstep hkept
        cases hstep
        subst hkept
        exact hi.return hpc
      | returning =>
        rw [hpc] at hstep
        cases hstep
        exact hi.quiet rfl rfl rfl (Nat.le_refl _) (hi.goOn hself fun o' => .inr rfl)
          (by simp [hpc])
          (by simp)

/-- A listener that is stored in the place of another, and a key that is not the one the
    listener is under. -/
theorem inv_break {p : State Obj Cb × Registered Obj Cb} {lab : Label Obj Cb} (hi : Inv p)
    (hkept : ¬ Kept p lab) : ∃ p', (listening Obj Cb n).step p lab = some p' ∧ ¬ Own p' := by
  obtain ⟨s, h⟩ := p
  cases lab with
  | step t =>
    simp only [Kept] at hkept
    cases hpc : s.pc t with
    | adding o li phase =>
      rw [hpc] at hkept
      have hself : (s.pc t).mode o = .write := by rw [hpc, mode_adding]
      cases phase with
      | incremented =>
        refine ⟨((s.setCb o s.funId (some li)).setPC t (.adding o li (.stored s.funId)), h), ?_,
          ?_⟩
        · refine System.withHistory_step.mpr ⟨?_, ?_⟩
          · simp [step, threadStep, hpc]
          · simp [record, hpc]
        · intro hown
          obtain ⟨li', hli'⟩ := Option.ne_none_iff_exists'.mp hkept
          -- what was there belongs to a call that has returned, since this thread has the lock
          rcases hi.entries o s.funId li' hli' with hr | ⟨u, hu⟩
          · have hcb := hown.stored _ hr
            have hcb : (s.setCb o s.funId (some li)).cbs o s.funId = some li' := hcb
            rw [setCb_self] at hcb
            cases hcb
            exact hi.unreturned t o li .incremented hpc (by simp) _ hr rfl
          · have hut : u = t := hi.alone hself (by rw [show s.pc u = _ from hu, mode_adding])
            subst hut
            rw [hpc] at hu
            cases hu
      | stored key =>
        refine ⟨(s.setPC t (.adding o li .returning), ⟨o, s.funId, li⟩ :: h), ?_, ?_⟩
        · refine System.withHistory_step.mpr ⟨?_, ?_⟩
          · simp [step, threadStep, hpc]
          · simp [record, hpc]
        · intro hown
          have hcb : s.cbs o s.funId = some li := hown.stored _ List.mem_cons_self
          -- the listener is under `key` and nowhere else
          rcases hi.entries o s.funId li hcb with hr | ⟨u, hu⟩
          · exact hi.unreturned t o li _ hpc (by simp) _ hr rfl
          · have hut : u = t := hi.distinct u t o o li _ _ hu hpc
            subst hut
            rw [hpc] at hu
            cases hu
            exact hkept rfl
      | _ => exact absurd trivial hkept
    | _ =>
      rw [hpc] at hkept
      exact absurd trivial hkept
  | _ => exact absurd trivial hkept

end runs

/-- Two variables: between the store and the return of one call, a call for the other
    variable increments the counter. -/
theorem not_own_overlap :
    ¬ ∀ (Obj Cb : Type) [DecidableEq Obj] (n : Nat) (ls : List (Label Obj Cb)),
    (listening Obj Cb n).Visits ls Own := by
  intro h
  have hlast := h Bool Unit 2 [.addListener 0 false (), .step 0, .step 0, .step 0,
    .addListener 1 true (), .step 1, .step 1, .step 0] _ _ List.prefix_rfl rfl
  have hcb := hlast.stored ⟨false, 2, ⟨(), 0⟩⟩ List.mem_cons_self
  cases hcb

/-! ### Calls that look at the counter at the same time -/

/-- Between the read and the write of `++s_fun_id`. -/
def PC.incrementing : PC Obj Cb → Bool
  | .adding _ _ (.loaded _) => true
  | _ => false

/-- Between the store of the listener and the return. -/
def PC.returns : PC Obj Cb → Bool
  | .adding _ _ (.stored _) => true
  | _ => false

/-- For each thread: some call has written the counter since this one stored a listener. -/
def passed (w : Nat → Bool) (p : State Obj Cb × Registered Obj Cb) :
    Label Obj Cb → Nat → Bool
  | .step t =>
    match p.1.pc t with
    | .adding _ _ (.loaded _) => fun _ => true
    | .adding _ _ .incremented => Function.update w t false
    | _ => w
  | _ => w

/-- The same threads, and who has written the counter behind whose back. -/
def watching (Obj Cb : Type) [DecidableEq Obj] (n : Nat) :
    System ((State Obj Cb × Registered Obj Cb) × (Nat → Bool)) (Label Obj Cb) :=
  (listening Obj Cb n).withHistory (fun _ => false) passed

/-- No increment is lost: when a call writes the counter, no other one is between the read
    and the write of its own increment, and there are fewer than 2^64 calls. -/
def Separate (q : (State Obj Cb × Registered Obj Cb) × (Nat → Bool)) : Label Obj Cb → Prop
  | .addListener _ _ _ => q.1.1.calls + 1 < 2 ^ 64
  | .delListener _ _ _ => True
  | .step t => (q.1.1.pc t).incrementing = true →
      ∀ u, u < q.1.1.nthreads → u ≠ t → (q.1.1.pc u).incrementing = false

/-- When a call returns, no other one has written the counter since its store. -/
def Undisturbed (q : (State Obj Cb × Registered Obj Cb) × (Nat → Bool)) : Label Obj Cb → Prop
  | .step t => (q.1.1.pc t).returns = true → q.2 t = false
  | _ => True

/-- The calls of `addListener` look at the counter one after the other, as far as it matters. -/
def Apart (q : (State Obj Cb × Registered Obj Cb) × (Nat → Bool)) (lab : Label Obj Cb) : Prop :=
  Separate q lab ∧ Undisturbed q lab

instance (q : (State Obj Cb × Registered Obj Cb) × (Nat → Bool)) :
    (lab : Label Obj Cb) → Decidable (Separate q lab)
  | .addListener _ _ _ => inferInstanceAs (Decidable (_ < _))
  | .delListener _ _ _ => isTrue trivial
  | .step t => inferInstanceAs (Decidable (_ → ∀ u, u < q.1.1.nthreads → u ≠ t → _))

instance (q : (State Obj Cb × Registered Obj Cb) × (Nat → Bool)) :
    (lab : Label Obj Cb) → Decidable (Undisturbed q lab)
  | .step _ => inferInstanceAs (Decidable (_ → _))
  | .addListener _ _ _ | .delListener _ _ _ => isTrue trivial

instance (q : (State Obj Cb × Registered Obj Cb) × (Nat → Bool)) (lab : Label Obj Cb) :
    Decidable (Apart q lab) :=
  inferInstanceAs (Decidable (_ ∧ _))

/-- A call that has not incremented the counter yet. -/
def PC.due : PC Obj Cb → Nat
  | .adding _ _ .locked | .adding _ _ (.loaded _) => 1
  | _ => 0

/-- The counter counts the calls, and is ahead of the keys. -/
structure Ahead (s : State Obj Cb) (w : Nat → Bool) : Prop where
  counted : total PC.due s.pc s.nthreads + s.funId.toNat = s.calls
  fits : s.calls < 2 ^ 64
  keys : ∀ o key, s.cbs o key ≠ none → key ≤ s.funId
  loaded : ∀ t o li id, s.pc t = .adding o li (.loaded id) → id = s.funId
  incremented : ∀ t o li, s.pc t = .adding o li .incremented →
    ∀ key, s.cbs o key ≠ none → key < s.funId
  stored : ∀ t o li key, s.pc t = .adding o li (.stored key) →
    if w t then key < s.funId else key = s.funId

section ahead
variable {s s' : State Obj Cb} {h : Registered Obj Cb} {w : Nat → Bool} {t : Nat}

omit [DecidableEq Obj] in
/-- Calls that are apart keep the counter as each of them needs it. -/
theorem Ahead.kept (ha : Ahead s w) {lab : Label Obj Cb} (hund : Undisturbed ((s, h), w) lab) :
    Kept (s, h) lab := by
  cases lab with
  | step t =>
    simp only [Kept]
    cases hpc : s.pc t with
    | adding o li phase =>
      cases phase with
      | incremented =>
        by_contra hused
        exact UInt64.lt_irrefl _ (ha.incremented t o li hpc s.funId hused)
      | stored key =>
        have hnot : w t = false := hund (by rw [hpc]; rfl)
        have hkey := ha.stored t o li key hpc
        rw [hnot] at hkey
        exact hkey.symm
      | _ => trivial
    | _ => trivial
  | _ => trivial

omit [DecidableEq Obj] in
/-- The other way round: a counter that has been written is no longer at the key. -/
theorem Ahead.undisturbed (ha : Ahead s w) {lab : Label Obj Cb} (hkept : Kept (s, h) lab) :
    Undisturbed ((s, h), w) lab := by
  cases lab with
  | step t =>
    intro hreturns
    simp only [Kept] at hkept
    cases hpc : s.pc t with
    | adding o li phase =>
      cases phase with
      | stored key =>
        rw [hpc] at hkept
        have hkey := ha.stored t o li key hpc
        by_contra hw
        rw [Bool.not_eq_false] at hw
        rw [if_pos hw, hkept] at hkey
        exact UInt64.lt_irrefl _ hkey
      | _ => simp [hpc, PC.returns] at hreturns
    | _ => simp [hpc, PC.returns] at hreturns
  | _ => trivial

omit [DecidableEq Obj] in
/-- A step that leaves the counter as it is and stores nothing. -/
theorem Ahead.quiet (ha : Ahead s w) {x : PC Obj Cb} (hpc : s'.pc = Function.update s.pc t x)
    (hid : s'.funId = s.funId) (hn : s'.nthreads = s.nthreads) (ht : t < s.nthreads)
    (hcbs : ∀ o key, s'.cbs o key ≠ none → s.cbs o key ≠ none)
    (hcalls : s'.calls + (s.pc t).due = s.calls + x.due) (hfits : s'.calls < 2 ^ 64)
    (hx : ∀ o li phase, x = .adding o li phase →
      phase = .locked ∨ phase = .loaded s.funId ∨ phase = .returning) : Ahead s' w := by
  have hback : ∀ {u o li phase}, s'.pc u = .adding o li phase → s.pc u = .adding o li phase ∨
      phase = .locked ∨ phase = .loaded s.funId ∨ phase = .returning := by
    intro u o li phase hu
    rw [hpc] at hu
    rcases pc_cases hu with ⟨-, hold⟩ | ⟨-, hnew⟩
    · exact .inl hold
    · exact .inr (hx o li phase hnew)
  have htotal := total_update PC.due s.pc x ht
  refine { counted := ?_, fits := hfits, keys := ?_, loaded := ?_, incremented := ?_, stored := ?_ }
  · have hcounted := ha.counted
    rw [hpc, hn, hid]
    omega
  · intro o key hcb
    rw [hid]
    exact ha.keys o key (hcbs o key hcb)
  · intro u o li id hu
    rw [hid]
    rcases hback hu with hu | hphase
    · exact ha.loaded u o li id hu
    · simpa using hphase
  · intro u o li hu key hcb
    rw [hid]
    rcases hback hu with hu | hphase
    · exact ha.incremented u o li hu key (hcbs o key hcb)
    · simp at hphase
  · intro u o li key hu
    rw [hid]
    rcases hback hu with hu | hphase
    · exact ha.stored u o li key hu
    · simp at hphase

omit [DecidableEq Obj] in
/-- The write of `++s_fun_id`, when no other increment is in progress. -/
theorem Ahead.write (ha : Ahead s w) {o : Obj} {li : Listener Cb} {id : UInt64}
    (hpc : s.pc t = .adding o li (.loaded id)) (ht : t < s.nthreads)
    (hone : ∀ u, u ≠ t → (s.pc u).incrementing = false) :
    Ahead ({ s with funId := id + 1 }.setPC t (.adding o li .incremented)) fun _ => true := by
  obtain rfl := ha.loaded t o li id hpc
  have hcounted := ha.counted
  have hfits := ha.fits
  have hdue : (s.pc t).due = 1 := by rw [hpc]; rfl
  have htotal := total_update PC.due s.pc (.adding o li .incremented) ht
  have hpositive : (s.pc t).due ≤ total PC.due s.pc s.nthreads := le_total PC.due s.pc ht
  -- this call is one that the counter has not counted yet
  have hsucc : (s.funId + 1).toNat = s.funId.toNat + 1 := by
    rw [UInt64.toNat_add]
    exact Nat.mod_eq_of_lt (by show s.funId.toNat + 1 < _; omega)
  have hlt : ∀ {key : UInt64}, key ≤ s.funId → key < s.funId + 1 := by
    intro key hle
    rw [UInt64.lt_iff_toNat_lt, hsucc]
    exact Nat.lt_succ_of_le (UInt64.le_iff_toNat_le.mp hle)
  refine { counted := ?_, fits := hfits, keys := ?_, loaded := ?_, incremented := ?_, stored := ?_ }
  · show total PC.due (Function.update s.pc t _) s.nthreads + (s.funId + 1).toNat = s.calls
    have hzero : (PC.adding o li .incremented).due = 0 := rfl
    omega
  · intro o' key hcb
    exact UInt64.le_of_lt (hlt (ha.keys o' key hcb))
  · intro u o' li' id hu
    rcases pc_cases hu with ⟨hut, hold⟩ | ⟨-, hnew⟩
    · have hnone := hone u hut
      rw [show s.pc u = _ from hold] at hnone
      cases hnone
    · cases hnew
  · intro u o' li' _ key hcb
    exact hlt (ha.keys o' key hcb)
  · intro u o' li' key hu
    rcases pc_cases hu with ⟨-, hold⟩ | ⟨-, hnew⟩
    · have hkey := ha.stored u o' li' key hold
      have hle : key ≤ s.funId := by
        split at hkey
        · exact UInt64.le_of_lt hkey
        · exact hkey ▸ UInt64.le_refl _
      exact hlt hle
    · cases hnew

/-- `m_cbs[s_fun_id] = cb`. -/
theorem Ahead.store (ha : Ahead s w) (hi : Inv (s, h)) {o : Obj} {li : Listener Cb}
    (hpc : s.pc t = .adding o li .incremented) :
    Ahead ((s.setCb o s.funId (some li)).setPC t (.adding o li (.stored s.funId)))
      (Function.update w t false) := by
  have hself : (s.pc t).mode o = .write := by rw [hpc, mode_adding]
  have hdue : (s.pc t).due = 0 := by rw [hpc]; rfl
  have htotal := total_update PC.due s.pc (.adding o li (.stored s.funId)) (hi.lt hself)
  refine { counted := ?_, fits := ha.fits, keys := ?_, loaded := ?_, incremented := ?_,
           stored := ?_ }
  · show total PC.due (Function.update s.pc t _) s.nthreads + s.funId.toNat = s.calls
    have hzero : (PC.adding o li (.stored s.funId)).due = 0 := rfl
    have hcounted := ha.counted
    omega
  · intro o' key hcb
    have hcb : (s.setCb o s.funId (some li)).cbs o' key ≠ none := hcb
    by_cases hsame : o' = o ∧ key = s.funId
    · exact hsame.2 ▸ UInt64.le_refl _
    · rw [setCb_of_ne hsame] at hcb
      exact ha.keys o' key hcb
  · intro u o' li' id hu
    rcases pc_cases hu with ⟨-, hold⟩ | ⟨-, hnew⟩
    · exact ha.loaded u o' li' id hold
    · cases hnew
  · intro u o' li' hu key hcb
    rcases pc_cases hu with ⟨hut, hold⟩ | ⟨-, hnew⟩
    · -- the lock of `o` is taken, so this is another variable
      have hthere : s.pc u = .adding o' li' .incremented := hold
      have hne : ¬ (o' = o ∧ key = s.funId) := by
        rintro ⟨rfl, -⟩
        exact hut (hi.alone hself (by rw [hthere, mode_adding]))
      have hcb : (s.setCb o s.funId (some li)).cbs o' key ≠ none := hcb
      rw [setCb_of_ne hne] at hcb
      exact ha.incremented u o' li' hthere key hcb
    · cases hnew
  · intro u o' li' key hu
    rcases pc_cases hu with ⟨hut, hold⟩ | ⟨rfl, hnew⟩
    · rw [Function.update_of_ne hut]
      exact ha.stored u o' li' key hold
    · cases hnew
      rw [Function.update_self]
      rfl

/-- While no increment is lost, every step keeps the counter ahead of the keys. -/
theorem ahead_step {lab : Label Obj Cb} (hi : Inv (s, h)) (ha : Ahead s w)
    (hsep : Separate ((s, h), w) lab) (hstep : step s lab = some s') :
    Ahead s' (passed w (s, h) lab) := by
  cases lab with
  | addListener t o cb =>
    simp only [step] at hstep
    cases hpc : s.pc t with
    | idle =>
      rw [hpc] at hstep
      obtain ⟨⟨ht, -⟩, hs'⟩ := Option.ite_none_right_eq_some.mp hstep
      cases hs'
      refine ha.quiet rfl rfl rfl ht (fun _ _ => id) (by rw [hpc]; rfl) hsep ?_
      intro o' li phase hx
      cases hx
      exact .inl rfl
    | _ =>
      rw [hpc] at hstep
      cases hstep
  | delListener t o key =>
    simp only [step] at hstep
    cases hpc : s.pc t with
    | idle =>
      rw [hpc] at hstep
      obtain ⟨⟨ht, -⟩, hs'⟩ := Option.ite_none_right_eq_some.mp hstep
      cases hs'
      exact ha.quiet rfl rfl rfl ht (fun _ _ => id) (by rw [hpc]; rfl) ha.fits nofun
    | _ =>
      rw [hpc] at hstep
      cases hstep
  | step t =>
    simp only [step, threadStep, passed] at hstep ⊢
    cases hpc : s.pc t with
    | idle =>
      rw [hpc] at hstep
      cases hstep
    | deleting o key =>
      have ht : t < s.nthreads := hi.lt (o := o) (by rw [hpc, mode_deleting])
      rw [hpc] at hstep
      cases hstep
      refine ha.quiet rfl rfl rfl ht ?_ (by rw [hpc]; rfl) ha.fits nofun
      intro o' key' hcb
      have hcb : (s.setCb o key none).cbs o' key' ≠ none := hcb
      by_cases hsame : o' = o ∧ key' = key
      · rw [hsame.1, hsame.2, setCb_self] at hcb
        exact absurd rfl hcb
      · rwa [setCb_of_ne hsame] at hcb
    | adding o li phase =>
      have ht : t < s.nthreads := hi.lt (o := o) (by rw [hpc, mode_adding])
      cases phase with
      | locked =>
        rw [hpc] at hstep
        cases hstep
        refine ha.quiet rfl rfl rfl ht (fun _ _ => id) (by rw [hpc]; rfl) ha.fits ?_
        intro o' li' phase hx
        cases hx
        exact .inr (.inl rfl)
      | loaded id =>
        rw [hpc] at hstep
        cases hstep
        refine ha.write hpc ht ?_
        intro u hut
        by_cases hlt : u < s.nthreads
        · exact hsep (by rw [hpc]; rfl) u hlt hut
        · cases hpcu : s.pc u with
          | adding o' li' phase => exact absurd (hi.lt (by rw [hpcu, mode_adding])) hlt
          | _ => rfl
      | incremented =>
        rw [hpc] at hstep
        cases hstep
        exact ha.store hi hpc
      | stored key =>
        rw [hpc] at hstep
        cases hstep
        refine ha.quiet rfl rfl rfl ht (fun _ _ => id) (by rw [hpc]; rfl) ha.fits ?_
        intro o' li' phase hx
        cases hx
        exact .inr (.inr rfl)
      | returning =>
        rw [hpc] at hstep
        cases hstep
        exact ha.quiet rfl rfl rfl ht (fun _ _ => id) (by rw [hpc]; rfl) ha.fits nofun

end ahead

section apart
variable {n : Nat}

/-- Before the first call there are no keys. -/
theorem ahead_init : Ahead (watching Obj Cb n).init.1.1 (watching Obj Cb n).init.2 where
  counted := total_eq_zero fun _ _ => rfl
  fits := Nat.two_pow_pos _
  keys _ _ hcb := absurd rfl hcb
  loaded := nofun
  incremented := nofun
  stored := nofun

/-- In every state of a run each listener is stored under the key that its call has
    returned and nothing else is stored, if and only if the counter is kept. -/
theorem own_iff_kept (ls : List (Label Obj Cb)) :
    ((watching Obj Cb n).Visits ls fun q => Own q.1) ↔
      (watching Obj Cb n).Steps ls fun q lab => Kept q.1 lab := by
  have hstep : ∀ (q : (State Obj Cb × Registered Obj Cb) × (Nat → Bool)) lab q', Inv q.1 →
      Kept q.1 lab → (watching Obj Cb n).step q lab = some q' → Inv q'.1 := by
    intro q lab q' hi hkept hq
    exact inv_step hi hkept (System.withHistory_step.mp hq).1
  have hbreak : ∀ (q : (State Obj Cb × Registered Obj Cb) × (Nat → Bool)) lab, Inv q.1 →
      ¬ Kept q.1 lab → ∃ q', (watching Obj Cb n).step q lab = some q' ∧ ¬ Own q'.1 := by
    intro q lab hi hkept
    obtain ⟨p', hp', hown⟩ := inv_break hi hkept
    exact ⟨(p', passed q.2 q.1 lab), System.withHistory_step.mpr ⟨hp', rfl⟩, hown⟩
  refine System.visits_iff_steps ?_ ?_ hstep hbreak ls
  · exact inv_init
  · exact fun _ hi => hi.toOwn

/-- A run in which no increment is lost, and the counter is kept as long as it is ahead. -/
theorem ahead_visits {ls : List (Label Obj Cb)}
    {guard : (State Obj Cb × Registered Obj Cb) × (Nat → Bool) → Label Obj Cb → Prop}
    (hkept : ∀ q lab, Ahead q.1.1 q.2 → guard q lab → Kept q.1 lab)
    (hsep : ∀ q lab, guard q lab → Separate q lab) (h : (watching Obj Cb n).Steps ls guard) :
    (watching Obj Cb n).Visits ls fun q => Inv q.1 ∧ Ahead q.1.1 q.2 := by
  refine System.visits_of_steps ⟨inv_init, ahead_init⟩ ?_ h
  rintro q lab q' ⟨hi, ha⟩ hguard hstep
  obtain ⟨hstep, hw⟩ := System.withHistory_step.mp hstep
  rw [hw]
  exact ⟨inv_step hi (hkept q lab ha hguard) hstep,
    ahead_step hi ha (hsep q lab hguard) (System.withHistory_step.mp hstep).1⟩

/-- In every run in which the calls of `addListener` are apart, each listener is stored under
    the key that its call has returned and nothing else is stored, in every state. Where
    no increment is lost, they must be apart for that. -/
theorem own_when_apart (Obj Cb : Type) [DecidableEq Obj] (n : Nat) (ls : List (Label Obj Cb)) :
    ((watching Obj Cb n).Steps ls Apart → (watching Obj Cb n).Visits ls fun q => Own q.1) ∧
      ((watching Obj Cb n).Steps ls Separate →
        ((watching Obj Cb n).Visits ls fun q => Own q.1) →
        (watching Obj Cb n).Steps ls Apart) := by
  constructor
  · intro h
    have hvisits := ahead_visits (fun _ _ ha hapart => ha.kept hapart.2) (fun _ _ => And.left) h
    exact fun pre q hpre hq => (hvisits pre q hpre hq).1.toOwn
  · intro hsep hown
    have hkept := (own_iff_kept ls).mp hown
    have hboth : (watching Obj Cb n).Steps ls fun q lab => Kept q.1 lab ∧ Separate q lab :=
      fun pre lab q hpre hq => ⟨hkept pre lab q hpre hq, hsep pre lab q hpre hq⟩
    have hvisits := ahead_visits (fun _ _ _ => And.left) (fun _ _ => And.right) hboth
    intro pre lab q hpre hq
    have ha := (hvisits pre q ((List.prefix_append _ _).trans hpre) hq).2
    exact ⟨hsep pre lab q hpre hq, ha.undisturbed (hkept pre lab q hpre hq)⟩

/-- Two calls that overlap: both have a lock and increment the counter, and both then store
    and return what it has become. -/
def sharedKey : List (Label Bool Unit) :=
  [.addListener 0 false (), .addListener 1 true (), .step 0, .step 0, .step 1, .step 1,
    .step 0, .step 1, .step 0, .step 1]

theorem own_when_apart_shared : (watching Bool Unit 2).Visits sharedKey fun q => Own q.1 :=
  (own_when_apart Bool Unit 2 sharedKey).1 (System.steps_of_restrict (by decide))

end apart

end Gwn.Config.Keys
