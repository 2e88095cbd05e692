import Gwn.Framework.Ordered
import Gwn.Framework.RWLock
import Gwn.Framework.System

/-! # Listeners that use their variable

    `setValue` calls the listeners under the read lock of the variable, in the middle of
    its loop over `m_cbs` (gwn/config.h). What a listener calls in turn runs on top of
    that, so each thread has a stack of operations and listeners here, and the listeners
    are lists of calls that may depend on the two values:

    - `Frame`, `step`: the operations, section by section, on the stacks of all threads
    - `SelfWait`: a thread waits for a lock that it holds itself
    - `not_free`: a listener that removes itself
    - `iteration_valid`: `m_cbs` is never changed under a loop
    - `free_iff`: no thread waits for itself if and only if listeners call no edit, and
      no `setValue` of theirs comes to the end of its loop -/

namespace Gwn.Config.Reenter

open LTS

variable {B T : Type}

/-! ### Operations and listeners -/

/-- What is done to `m_cbs` under the write lock. -/
inductive Edit (B : Type) where
  | addListener (cb : B)
  | delListener (key : Nat)
  | clearListener
deriving DecidableEq

/-- The public operations. -/
inductive Op (B T : Type) where
  | setValue (v : T)
  /-- `getValue`, `toString` or `getListener`. -/
  | get
  | edit (e : Edit B)
deriving DecidableEq

/-- Where a thread is in an operation. -/
inductive PC (B T : Type) where
  /-- `setValue`: construction of the `ReadLock`. -/
  | rdlock (v : T)
  /-- `if(v == m_val)`. -/
  | compare (v : T)
  /-- At the head of the loop, with the iterator at this key. -/
  | notify (v : T) (it : Option Nat)
  /-- The listener with this key has been called. -/
  | called (v : T) (key : Nat)
  /-- Between the two sections: construction of the `WriteLock`. -/
  | wrlock (v : T)
  /-- `m_val = v`. -/
  | assign (v : T)
  | rdlockGet
  | get
  | wrlockEdit (e : Edit B)
  | edit (e : Edit B)
deriving DecidableEq

/-- How an operation holds `m_mutex`. -/
def PC.mode : PC B T → Mode
  | .compare _ | .notify _ _ | .called _ _ | .get => .read
  | .assign _ | .edit _ => .write
  | _ => .free

/-- How it waits for `m_mutex`. -/
def PC.wants : PC B T → Mode
  | .rdlock _ | .rdlockGet => .read
  | .wrlock _ | .wrlockEdit _ => .write
  | _ => .free

/-- An operation in progress, or a listener with the calls that it has still to make. -/
inductive Frame (B T : Type) where
  | op (pc : PC B T)
  | body (ops : List (Op B T))
deriving DecidableEq

def Frame.mode : Frame B T → Mode
  | .op pc => pc.mode
  | .body _ => .free

/-- How a thread holds `m_mutex`: as the last of its operations that holds it does. -/
def held : List (Frame B T) → Mode
  | [] => .free
  | f :: fs =>
    match f.mode with
    | .free => held fs
    | m => m

structure State (B T : Type) where
  /-- `m_val`. -/
  val : T
  /-- `m_cbs`. -/
  cbs : Ordered (Prod.fst : Nat × B → Nat)
  /-- `s_fun_id`, which all variables of the type share. -/
  funId : Nat
  /-- What each thread is in, the last call first. -/
  stack : Nat → List (Frame B T)
  /-- Threads with ids below `nthreads` use the variable. -/
  nthreads : Nat
  /-- A loop has used an iterator to an entry that was gone. -/
  invalid : Bool

inductive Label (B T : Type) where
  /-- Thread `t` calls an operation, outside any listener. -/
  | call (t : Nat) (op : Op B T)
  /-- Thread `t` takes its next step. -/
  | step (t : Nat)
  /-- `addListener` of another variable of the type has left `s_fun_id` at `id`. -/
  | elsewhere (id : Nat)
deriving DecidableEq

def State.setStack (s : State B T) (t : Nat) (fs : List (Frame B T)) : State B T :=
  { s with stack := Function.update s.stack t fs }

/-- The start of an operation. -/
def Op.start : Op B T → PC B T
  | .setValue v => .rdlock v
  | .get => .rdlockGet
  | .edit e => .wrlockEdit e

/-- `m_cbs` and `s_fun_id` after an edit. -/
def Edit.apply (s : State B T) : Edit B → State B T
  | .addListener cb =>
    let id := (s.funId + 1) % 2 ^ 64
    { s with funId := id, cbs := s.cbs.assign (id, cb) }
  | .delListener key => { s with cbs := s.cbs.erase key }
  | .clearListener => { s with cbs := Ordered.empty }

/-- `m_cbs.begin()`. -/
def begin (cbs : Ordered (Prod.fst : Nat × B → Nat)) : Option Nat :=
  cbs.entries.head?.map Prod.fst

/-- `++it`. -/
def next (cbs : Ordered (Prod.fst : Nat × B → Nat)) (key : Nat) : Option Nat :=
  (cbs.entries.find? fun x => key < x.1).map Prod.fst

section step
variable [BEq T] (listen : B → T → T → List (Op B T))

/-- The next step in an operation on top of `fs`. Leaving a section releases its lock. -/
def opStep (s : State B T) (t : Nat) (fs : List (Frame B T)) : PC B T → Option (State B T)
  | .rdlock v =>
    if MayLock held s.nthreads s.stack .read then
      some (s.setStack t (.op (.compare v) :: fs))
    else none
  | .compare v =>
    if v == s.val then some (s.setStack t fs)
    else some (s.setStack t (.op (.notify v (begin s.cbs)) :: fs))
  | .notify v none => some (s.setStack t (.op (.wrlock v) :: fs))
  | .notify v (some key) =>
    match s.cbs.find? key with
    | some x => some (s.setStack t (.body (listen x.2 s.val v) :: .op (.called v key) :: fs))
    | none => some { s with invalid := true }
  | .called v key =>
    match s.cbs.find? key with
    | some _ => some (s.setStack t (.op (.notify v (next s.cbs key)) :: fs))
    | none => some { s with invalid := true }
  | .wrlock v =>
    if MayLock held s.nthreads s.stack .write then
      some (s.setStack t (.op (.assign v) :: fs))
    else none
  | .assign v => some ({ s with val := v }.setStack t fs)
  | .rdlockGet =>
    if MayLock held s.nthreads s.stack .read then some (s.setStack t (.op .get :: fs)) else none
  | .get => some (s.setStack t fs)
  | .wrlockEdit e =>
    if MayLock held s.nthreads s.stack .write then
      some (s.setStack t (.op (.edit e) :: fs))
    else none
  | .edit e => some ((e.apply s).setStack t fs)

/-- The next step of thread `t`. -/
def threadStep (s : State B T) (t : Nat) : Option (State B T) :=
  match s.stack t with
  | [] => none
  | .op pc :: fs => opStep listen s t fs pc
  | .body [] :: fs => some (s.setStack t fs)
  | .body (o :: ops) :: fs => some (s.setStack t (.op o.start :: .body ops :: fs))

def step (s : State B T) : Label B T → Option (State B T)
  | .call t op =>
    if t < s.nthreads ∧ s.stack t = [] then some (s.setStack t [.op op.start]) else none
  | .step t => if t < s.nthreads then threadStep listen s t else none
  | .elsewhere id => some { s with funId := id }

/-- A variable with the value `val` and these listeners, about to be used by `n` threads. -/
def State.initial (n : Nat) (val : T) (cbs : Ordered (Prod.fst : Nat × B → Nat)) (funId : Nat) :
    State B T :=
  { val := val, cbs := cbs, funId := funId, stack := fun _ => [], nthreads := n, invalid := false }

/-- The variable, where the listener `b` makes the calls `listen b old new`. -/
def configVar (n : Nat) (val : T) (cbs : Ordered (Prod.fst : Nat × B → Nat)) (funId : Nat) :
    System (State B T) (Label B T) where
  init := .initial n val cbs funId
  step := step listen

end step

/-! ### Waiting for oneself -/

/-- A thread waits for a lock, and its own operations further down do not let it have it. -/
def SelfWait (stack : List (Frame B T)) : Prop :=
  ∃ pc fs, stack = .op pc :: fs ∧ pc.wants.compatible (held fs) = false

/-- No thread waits for itself, and no loop has lost its place. -/
structure Free (s : State B T) : Prop where
  waits : ∀ t, ¬ SelfWait (s.stack t)
  valid : s.invalid = false

/-- A listener does not call an edit, and a `setValue` that a listener has called does not
    come to the end of its loop. -/
def Clear (s : State B T) : Label B T → Prop
  | .step t =>
    match s.stack t with
    | .body (.edit _ :: _) :: _ => False
    | .op (.notify _ none) :: fs => fs = []
    | _ => True
  | _ => True

/-! ### Stacks -/

/-- What listeners are called from. -/
inductive Nested : List (Frame B T) → Prop where
  | nil : Nested []
  | call (v : T) (key : Nat) (ops : List (Op B T)) {fs : List (Frame B T)} (h : Nested fs) :
    Nested (.body ops :: .op (.called v key) :: fs)

/-- The stack of a thread between two calls, in a listener, or in an operation. -/
def Shape (fs : List (Frame B T)) : Prop :=
  Nested fs ∨ ∃ pc rest, fs = .op pc :: rest ∧ Nested rest ∧
    (pc.mode = .write → rest = [])

/-- The entry that the iterator of a loop is at. -/
def Frame.entry : Frame B T → Option Nat
  | .op (.notify _ it) => it
  | .op (.called _ key) => some key
  | _ => none

/-- The loops are at entries of `m_cbs`. -/
def Pointed (cbs : Ordered (Prod.fst : Nat × B → Nat)) (fs : List (Frame B T)) : Prop :=
  ∀ f ∈ fs, ∀ key, f.entry = some key → (cbs.find? key).isSome

section frames
variable {fs : List (Frame B T)} {pc : PC B T} {cbs : Ordered (Prod.fst : Nat × B → Nat)}

@[simp] theorem held_nil : held ([] : List (Frame B T)) = .free := rfl

@[simp] theorem held_body (ops : List (Op B T)) : held (.body ops :: fs) = held fs := rfl

/-- The rest counts only if the operation on top does not hold the lock. -/
theorem held_op : held (.op pc :: fs) = if pc.mode = .free then held fs else pc.mode := by
  show (match pc.mode with | .free => held fs | m => m) = _
  cases pc.mode <;> rfl

/-- A listener runs under the read lock. -/
theorem Nested.held (h : Nested fs) : fs = [] ∨ held fs = .read := by
  cases h with
  | nil => exact .inl rfl
  | call v key ops h => exact .inr rfl

/-- The loops hold the lock. -/
theorem pointed_of_free (h : held fs = .free) : Pointed cbs fs := by
  intro f hf key hentry
  induction fs with
  | nil => cases hf
  | cons g fs ih =>
    have hmode : g.mode = .free := by
      by_contra hne
      rw [Reenter.held] at h
      split at h
      · next hfree => exact hne hfree
      · exact hne h
    rcases List.mem_cons.mp hf with rfl | hf
    · -- a loop is no free frame
      have hread : f.mode = .read := by
        unfold Frame.entry at hentry
        split at hentry
        · rfl
        · rfl
        · cases hentry
      rw [hread] at hmode
      cases hmode
    · refine ih ?_ hf
      rwa [Reenter.held, hmode] at h

theorem Pointed.tail {f : Frame B T} (h : Pointed cbs (f :: fs)) : Pointed cbs fs :=
  fun g hg => h g (List.mem_cons_of_mem _ hg)

theorem Pointed.cons {f : Frame B T} (hf : ∀ key, f.entry = some key → (cbs.find? key).isSome)
    (h : Pointed cbs fs) : Pointed cbs (f :: fs) := by
  intro g hg
  rcases List.mem_cons.mp hg with rfl | hg
  · exact hf
  · exact h g hg

/-- `m_cbs.begin()` and `++it` are at an entry, if they are not at the end. -/
theorem find_begin {key : Nat} (h : begin cbs = some key) : (cbs.find? key).isSome := by
  obtain ⟨x, hx, rfl⟩ := Option.map_eq_some_iff.mp h
  exact Option.isSome_iff_exists.mpr
    ⟨x, Ordered.find?_eq_some.mpr ⟨List.mem_of_head? hx, rfl⟩⟩

theorem find_next {k key : Nat} (h : next cbs k = some key) : (cbs.find? key).isSome := by
  obtain ⟨x, hx, rfl⟩ := Option.map_eq_some_iff.mp h
  exact Option.isSome_iff_exists.mpr
    ⟨x, Ordered.find?_eq_some.mpr ⟨List.mem_of_find?_eq_some hx, rfl⟩⟩

end frames

/-! ### The invariant -/

structure Inv (s : State B T) : Prop where
  absent : ∀ t, s.nthreads ≤ t → s.stack t = []
  locked : Locked held s.nthreads s.stack
  shape : ∀ t, Shape (s.stack t)
  pointed : ∀ t, Pointed s.cbs (s.stack t)
  valid : s.invalid = false

section invariant
variable {s s' : State B T} {t : Nat}

theorem inv_initial (n : Nat) (val : T) (cbs : Ordered (Prod.fst : Nat × B → Nat))
    (funId : Nat) :
    Inv (State.initial n val cbs funId) where
  absent _ _ := rfl
  locked := ⟨fun _ _ => rfl, fun _ _ _ => rfl⟩
  shape _ := .inl .nil
  pointed _ f hf := by cases hf
  valid := rfl

/-- The stack of one thread changes. -/
theorem Inv.move (hs : Inv s) (ht : t < s.nthreads) {fs : List (Frame B T)}
    (hstack : s'.stack = Function.update s.stack t fs) (hn : s'.nthreads = s.nthreads)
    (hvalid : s'.invalid = s.invalid)
    (hheld : held fs = held (s.stack t) ∨ held fs = .free ∨
      MayLock held s.nthreads s.stack (held fs))
    (hshape : Shape fs) (hpointed : Pointed s'.cbs fs)
    (hothers : ∀ t', t' ≠ t → Pointed s'.cbs (s.stack t')) : Inv s' where
  absent u hu := by
    rw [hn] at hu
    rw [hstack, Function.update_of_ne (by omega)]
    exact hs.absent u hu
  locked := by
    rw [hn, hstack]
    exact hs.locked.update ht hheld
  shape u := by
    rw [hstack]
    by_cases hut : u = t
    · rw [hut, Function.update_self]
      exact hshape
    · rw [Function.update_of_ne hut]
      exact hs.shape u
  pointed u := by
    rw [hstack]
    by_cases hut : u = t
    · rw [hut, Function.update_self]
      exact hpointed
    · rw [Function.update_of_ne hut]
      exact hothers u hut
  valid := hvalid.trans hs.valid

/-- The stack of one thread changes, and nothing else. -/
theorem Inv.setStack (hs : Inv s) (ht : t < s.nthreads) {fs : List (Frame B T)}
    (hheld : held fs = held (s.stack t) ∨ held fs = .free ∨
      MayLock held s.nthreads s.stack (held fs))
    (hshape : Shape fs) (hpointed : Pointed s.cbs fs) : Inv (s.setStack t fs) :=
  hs.move ht rfl rfl rfl hheld hshape hpointed fun t' _ => hs.pointed t'

@[simp] theorem apply_stack (e : Edit B) (s : State B T) : (e.apply s).stack = s.stack := by
  cases e <;> rfl

@[simp] theorem apply_nthreads (e : Edit B) (s : State B T) :
    (e.apply s).nthreads = s.nthreads := by
  cases e <;> rfl

@[simp] theorem apply_invalid (e : Edit B) (s : State B T) : (e.apply s).invalid = s.invalid := by
  cases e <;> rfl

/-- An operation runs on listeners, and alone when it writes. -/
theorem Inv.below (hs : Inv s) {pc : PC B T} {fs : List (Frame B T)}
    (hstack : s.stack t = .op pc :: fs) :
    Nested fs ∧ (pc.mode = .write → fs = []) := by
  have hshape := hs.shape t
  rw [hstack] at hshape
  rcases hshape with hnested | ⟨pc', rest, heq, hnested, hwrite⟩
  · cases hnested
  · cases heq
    exact ⟨hnested, hwrite⟩

/-- A listener was called by a loop, which holds the read lock. -/
theorem Inv.listening (hs : Inv s) {ops : List (Op B T)} {fs : List (Frame B T)}
    (hstack : s.stack t = .body ops :: fs) :
    held fs = .read ∧ ∃ v key rest, fs = .op (.called v key) :: rest ∧ Nested rest := by
  have hshape := hs.shape t
  rw [hstack] at hshape
  rcases hshape with hnested | ⟨pc, rest, heq, _⟩
  · cases hnested with
    | call v key ops hnested => exact ⟨rfl, v, key, _, rfl, hnested⟩
  · cases heq

/-- The write lock is granted to no thread that has it in any way. -/
theorem nil_of_mayLock {pc : PC B T} {fs : List (Frame B T)} (hstack : s.stack t = .op pc :: fs)
    (ht : t < s.nthreads) (hfree : pc.mode = .free) (hnested : Nested fs)
    (hlock : MayLock held s.nthreads s.stack .write) : fs = [] := by
  have hheld := Mode.free_of_write (hlock t ht)
  rw [hstack, held_op, if_pos hfree] at hheld
  rcases hnested.held with hnil | hread
  · exact hnil
  · rw [hread] at hheld
    cases hheld

theorem inv_opStep [BEq T] {listen : B → T → T → List (Op B T)} {pc : PC B T}
    {fs : List (Frame B T)} (hs : Inv s) (ht : t < s.nthreads) (hstack : s.stack t = .op pc :: fs)
    (h : opStep listen s t fs pc = some s') : Inv s' := by
  obtain ⟨hnested, hwrite⟩ := hs.below hstack
  have hpointed : Pointed s.cbs (.op pc :: fs) := hstack ▸ hs.pointed t
  have hrest := hpointed.tail
  -- the section is left for what is below it
  have hpop (hread : pc.mode = .read) :
      held fs = held (s.stack t) ∨ held fs = .free ∨
        MayLock held s.nthreads s.stack (held fs) := by
    rcases hnested.held with rfl | hheld
    · exact .inr (.inl rfl)
    · refine .inl ?_
      rw [hstack, held_op, hread, hheld]
      rfl
  have hshape (pc' : PC B T) (hmode : pc'.mode ≠ .write) : Shape (.op pc' :: fs) :=
    .inr ⟨pc', fs, rfl, hnested, fun h => absurd h hmode⟩
  cases pc with
  | rdlock v =>
    simp only [opStep, Option.ite_none_right_eq_some] at h
    obtain ⟨hlock, h⟩ := h
    obtain rfl := Option.some.inj h
    exact hs.setStack ht (.inr (.inr hlock)) (hshape _ (by simp [PC.mode]))
      (hrest.cons fun key hkey => by cases hkey)
  | compare v =>
    simp only [opStep] at h
    split at h
    · obtain rfl := Option.some.inj h
      exact hs.setStack ht (hpop rfl) (.inl hnested) hrest
    · obtain rfl := Option.some.inj h
      exact hs.setStack ht (.inl (by rw [hstack]; rfl)) (hshape _ (by simp [PC.mode]))
        (hrest.cons fun key hkey => find_begin hkey)
  | notify v it =>
    cases it with
    | none =>
      obtain rfl := Option.some.inj h
      exact hs.setStack ht (hpop rfl) (hshape _ (by simp [PC.mode]))
        (hrest.cons fun key hkey => by cases hkey)
    | some key =>
      have hfind : (s.cbs.find? key).isSome := hpointed _ List.mem_cons_self key rfl
      obtain ⟨x, hx⟩ := Option.isSome_iff_exists.mp hfind
      simp only [opStep, hx] at h
      obtain rfl := Option.some.inj h
      refine hs.setStack ht (.inl (by rw [hstack]; rfl)) (.inl (.call v key _ hnested)) ?_
      refine (hrest.cons fun k hk => ?_).cons fun k hk => by cases hk
      cases hk
      exact hfind
  | called v key =>
    have hfind : (s.cbs.find? key).isSome := hpointed _ List.mem_cons_self key rfl
    obtain ⟨x, hx⟩ := Option.isSome_iff_exists.mp hfind
    simp only [opStep, hx] at h
    obtain rfl := Option.some.inj h
    exact hs.setStack ht (.inl (by rw [hstack]; rfl)) (hshape _ (by simp [PC.mode]))
      (hrest.cons fun k hk => find_next hk)
  | wrlock v =>
    simp only [opStep, Option.ite_none_right_eq_some] at h
    obtain ⟨hlock, h⟩ := h
    obtain rfl := Option.some.inj h
    obtain rfl := nil_of_mayLock hstack ht rfl hnested hlock
    exact hs.setStack ht (.inr (.inr hlock)) (.inr ⟨_, [], rfl, .nil, fun _ => rfl⟩)
      (hrest.cons fun key hkey => by cases hkey)
  | assign v =>
    obtain rfl := hwrite rfl
    obtain rfl := Option.some.inj h
    exact hs.move ht rfl rfl rfl (.inr (.inl rfl)) (.inl .nil) hrest fun t' _ => hs.pointed t'
  | rdlockGet =>
    simp only [opStep, Option.ite_none_right_eq_some] at h
    obtain ⟨hlock, h⟩ := h
    obtain rfl := Option.some.inj h
    exact hs.setStack ht (.inr (.inr hlock)) (hshape _ (by simp [PC.mode]))
      (hrest.cons fun key hkey => by cases hkey)
  | get =>
    obtain rfl := Option.some.inj h
    exact hs.setStack ht (hpop rfl) (.inl hnested) hrest
  | wrlockEdit e =>
    simp only [opStep, Option.ite_none_right_eq_some] at h
    obtain ⟨hlock, h⟩ := h
    obtain rfl := Option.some.inj h
    obtain rfl := nil_of_mayLock hstack ht rfl hnested hlock
    exact hs.setStack ht (.inr (.inr hlock)) (.inr ⟨_, [], rfl, .nil, fun _ => rfl⟩)
      (hrest.cons fun key hkey => by cases hkey)
  | edit e =>
    obtain rfl := hwrite rfl
    obtain rfl := Option.some.inj h
    -- no other thread is in a loop
    refine hs.move ht (by simp [State.setStack]) (by simp [State.setStack])
      (by simp [State.setStack])
      (.inr (.inl rfl)) (.inl .nil) (fun f hf => by cases hf) fun t' hne => ?_
    apply pointed_of_free
    exact hs.locked.alone (t := t) (by rw [hstack]; rfl) hne

theorem inv_step [BEq T] {listen : B → T → T → List (Op B T)} {l : Label B T} (hs : Inv s)
    (h : step listen s l = some s') : Inv s' := by
  cases l with
  | call t op =>
    simp only [step, Option.ite_none_right_eq_some] at h
    obtain ⟨⟨ht, hnil⟩, h⟩ := h
    obtain rfl := Option.some.inj h
    have hfree : op.start.mode = .free := by cases op <;> rfl
    refine hs.setStack ht (.inr (.inl ?_)) (.inr ⟨op.start, [], rfl, .nil, fun _ => rfl⟩) ?_
    · rw [held_op, if_pos hfree]
      rfl
    · apply pointed_of_free
      rw [held_op, if_pos hfree]
      rfl
  | step t =>
    simp only [step, Option.ite_none_right_eq_some] at h
    obtain ⟨ht, h⟩ := h
    unfold threadStep at h
    split at h
    · cases h
    · next pc fs hstack => exact inv_opStep hs ht hstack h
    · next fs hstack =>
      -- back in the loop
      obtain rfl := Option.some.inj h
      have hpointed := hs.pointed t
      rw [hstack] at hpointed
      obtain ⟨_, v, key, rest, rfl, hnested⟩ := hs.listening hstack
      exact hs.setStack ht (.inl (by rw [hstack]; rfl))
        (.inr ⟨.called v key, rest, rfl, hnested, fun h => by cases h⟩) hpointed.tail
    · next o ops fs hstack =>
      -- the operation that is called has no lock yet
      obtain rfl := Option.some.inj h
      have hpointed := hs.pointed t
      rw [hstack] at hpointed
      have hfree : o.start.mode = .free := by cases o <;> rfl
      obtain ⟨_, v, key, rest, rfl, hnested⟩ := hs.listening hstack
      refine hs.setStack ht (.inl ?_)
        (.inr ⟨o.start, _, rfl, .call v key ops hnested, fun h => ?_⟩) ?_
      · rw [hstack, held_op, if_pos hfree]
        rfl
      · rw [hfree] at h
        cases h
      · refine (hpointed.tail.cons fun k hk => by cases hk).cons fun k hk => ?_
        cases o <;> cases hk
  | elsewhere id =>
    obtain rfl := Option.some.inj h
    exact ⟨hs.absent, hs.locked, hs.shape, hs.pointed, hs.valid⟩

end invariant

/-- Whatever the listeners do, `m_cbs` is not changed under a loop: the write lock is not
    granted before the loop is over. -/
theorem iteration_valid [BEq T] {listen : B → T → T → List (Op B T)} {n : Nat} {val : T}
    {cbs : Ordered (Prod.fst : Nat × B → Nat)} {funId : Nat} :
    ∀ s, (configVar listen n val cbs funId).Reachable s → s.invalid = false :=
  fun s h => (System.invariant (inv_initial n val cbs funId) (fun _ _ _ => inv_step) s h).valid

/-! ### When no thread waits for itself -/

section waits
variable {s s' : State B T} {t : Nat} {pc : PC B T} {fs : List (Frame B T)}

theorem selfWait_op : SelfWait (.op pc :: fs) ↔ pc.wants.compatible (held fs) = false := by
  constructor
  · intro ⟨pc', fs', heq, h⟩
    cases heq
    exact h
  · intro h
    exact ⟨pc, fs, rfl, h⟩

theorem not_selfWait_body (ops : List (Op B T)) : ¬ SelfWait (.body ops :: fs) := by
  intro ⟨pc, fs', heq, _⟩
  cases heq

theorem Nested.not_selfWait (h : Nested fs) : ¬ SelfWait fs := by
  cases h with
  | nil =>
    intro ⟨pc, fs', heq, _⟩
    cases heq
  | call v key ops h => exact not_selfWait_body ops

/-- What a step does to the stack of its thread. -/
theorem opStep_stack [BEq T] {listen : B → T → T → List (Op B T)}
    (h : opStep listen s t fs pc = some s') :
    s'.stack = s.stack ∨ s'.stack = Function.update s.stack t fs ∨
      (∃ ops fs', s'.stack = Function.update s.stack t (.body ops :: fs')) ∨
      ∃ pc', s'.stack = Function.update s.stack t (.op pc' :: fs) ∧
        (pc'.wants = .free ∨ ∃ v, pc = .notify v none ∧ pc' = .wrlock v) := by
  cases pc with
  | rdlock v =>
    simp only [opStep, Option.ite_none_right_eq_some] at h
    obtain rfl := Option.some.inj h.2
    exact .inr (.inr (.inr ⟨_, rfl, .inl rfl⟩))
  | compare v =>
    simp only [opStep] at h
    split at h
    · obtain rfl := Option.some.inj h
      exact .inr (.inl rfl)
    · obtain rfl := Option.some.inj h
      exact .inr (.inr (.inr ⟨_, rfl, .inl rfl⟩))
  | notify v it =>
    cases it with
    | none =>
      obtain rfl := Option.some.inj h
      exact .inr (.inr (.inr ⟨_, rfl, .inr ⟨v, rfl, rfl⟩⟩))
    | some key =>
      simp only [opStep] at h
      split at h
      · obtain rfl := Option.some.inj h
        exact .inr (.inr (.inl ⟨_, _, rfl⟩))
      · obtain rfl := Option.some.inj h
        exact .inl rfl
  | called v key =>
    simp only [opStep] at h
    split at h
    · obtain rfl := Option.some.inj h
      exact .inr (.inr (.inr ⟨_, rfl, .inl rfl⟩))
    · obtain rfl := Option.some.inj h
      exact .inl rfl
  | wrlock v =>
    simp only [opStep, Option.ite_none_right_eq_some] at h
    obtain rfl := Option.some.inj h.2
    exact .inr (.inr (.inr ⟨_, rfl, .inl rfl⟩))
  | assign v =>
    obtain rfl := Option.some.inj h
    exact .inr (.inl rfl)
  | rdlockGet =>
    simp only [opStep, Option.ite_none_right_eq_some] at h
    obtain rfl := Option.some.inj h.2
    exact .inr (.inr (.inr ⟨_, rfl, .inl rfl⟩))
  | get =>
    obtain rfl := Option.some.inj h
    exact .inr (.inl rfl)
  | wrlockEdit e =>
    simp only [opStep, Option.ite_none_right_eq_some] at h
    obtain rfl := Option.some.inj h.2
    exact .inr (.inr (.inr ⟨_, rfl, .inl rfl⟩))
  | edit e =>
    obtain rfl := Option.some.inj h
    exact .inr (.inl (by simp [State.setStack]))

/-- A step of one thread keeps the others from waiting for themselves if it keeps its own. -/
theorem waits_update (hfree : ∀ u, ¬ SelfWait (s.stack u)) (hfs : ¬ SelfWait fs)
    (hstack : s'.stack = Function.update s.stack t fs) (u : Nat) : ¬ SelfWait (s'.stack u) := by
  rw [hstack]
  by_cases hut : u = t
  · rw [hut, Function.update_self]
    exact hfs
  · rw [Function.update_of_ne hut]
    exact hfree u

theorem waits_step [BEq T] {listen : B → T → T → List (Op B T)} {l : Label B T} (hs : Inv s)
    (hfree : ∀ u, ¬ SelfWait (s.stack u)) (hguard : Clear s l) (h : step listen s l = some s') :
    ∀ u, ¬ SelfWait (s'.stack u) := by
  cases l with
  | call t op =>
    simp only [step, Option.ite_none_right_eq_some] at h
    obtain rfl := Option.some.inj h.2
    refine waits_update (t := t) hfree ?_ rfl
    rw [selfWait_op, held_nil, Mode.compatible_comm, Mode.free_compatible]
    simp
  | step t =>
    simp only [step, Option.ite_none_right_eq_some] at h
    obtain ⟨_, h⟩ := h
    unfold threadStep at h
    split at h
    · cases h
    · next pc fs hstack =>
      obtain ⟨hnested, _⟩ := hs.below hstack
      rcases opStep_stack h with heq | heq | ⟨ops, fs', heq⟩ | ⟨pc', heq, hwants⟩
      · rw [heq]
        exact hfree
      · exact waits_update hfree hnested.not_selfWait heq
      · exact waits_update hfree (not_selfWait_body ops) heq
      · refine waits_update hfree ?_ heq
        rw [selfWait_op]
        rcases hwants with hfree' | ⟨v, rfl, rfl⟩
        · simp [hfree', Mode.free_compatible]
        · -- the end of a loop that no listener has called
          have hnil : fs = [] := by simpa [Clear, hstack] using hguard
          simp [hnil, PC.wants, Mode.compatible]
    · next fs hstack =>
      -- the loop goes on, and asks for nothing
      obtain rfl := Option.some.inj h
      obtain ⟨_, v, key, rest, rfl, _⟩ := hs.listening hstack
      refine waits_update (t := t) hfree ?_ rfl
      rw [selfWait_op]
      simp [PC.wants, Mode.free_compatible]
    · next o ops fs hstack =>
      -- an operation that begins with the read lock, which goes with that of the loop
      obtain rfl := Option.some.inj h
      refine waits_update (t := t) hfree ?_ rfl
      rw [selfWait_op, held_body, (hs.listening hstack).1]
      cases o with
      | edit e => simp [Clear, hstack] at hguard
      | _ => simp [Op.start, PC.wants, Mode.compatible]
  | elsewhere id =>
    obtain rfl := Option.some.inj h
    exact hfree

/-- An edit that a listener calls, and the write lock that a `setValue` of a listener comes
    to, wait for the loop below. -/
theorem step_breaks [BEq T] {listen : B → T → T → List (Op B T)} {l : Label B T} (hs : Inv s)
    (hguard : ¬ Clear s l) : ∃ s', step listen s l = some s' ∧ ¬ Free s' := by
  cases l with
  | call t op => exact absurd trivial hguard
  | elsewhere id => exact absurd trivial hguard
  | step t =>
    have ht : t < s.nthreads := by
      by_contra hle
      simp [Clear, hs.absent t (Nat.le_of_not_lt hle)] at hguard
    simp only [Clear] at hguard
    split at hguard
    · -- the edit wants the write lock
      next e ops fs hstack =>
      refine ⟨s.setStack t (.op (.wrlockEdit e) :: .body ops :: fs), ?_, fun hfree => ?_⟩
      · simp [step, ht, threadStep, hstack, Op.start]
      · refine hfree.waits t ?_
        show SelfWait (Function.update s.stack t _ t)
        rw [Function.update_self, selfWait_op, held_body, (hs.listening hstack).1]
        rfl
    · -- behind its loop `setValue` wants the write lock, and there is a loop below
      next v fs hstack =>
      refine ⟨s.setStack t (.op (.wrlock v) :: fs), ?_, fun hfree => ?_⟩
      · simp [step, ht, threadStep, hstack, opStep]
      · refine hfree.waits t ?_
        show SelfWait (Function.update s.stack t _ t)
        rw [Function.update_self, selfWait_op]
        rcases (hs.below hstack).1.held with hnil | hread
        · exact absurd hnil hguard
        · rw [hread]
          rfl
    · exact absurd trivial hguard

end waits

/-! ### Every run -/

/-- The invariant, and no thread waits for itself. -/
structure Calm (s : State B T) : Prop extends Inv s where
  waits : ∀ t, ¬ SelfWait (s.stack t)

/-- For every variable, all listeners and every run of any number of threads: no thread
    ever waits for a lock of the variable that it holds itself, and no loop over `m_cbs`
    is invalidated, if and only if listeners call no edit, and no `setValue` that a
    listener has called comes to the end of its loop. -/
theorem free_iff [BEq T] (listen : B → T → T → List (Op B T)) (n : Nat) (val : T)
    (cbs : Ordered (Prod.fst : Nat × B → Nat)) (funId : Nat) (ls : List (Label B T)) :
    (configVar listen n val cbs funId).Visits ls Free ↔
      (configVar listen n val cbs funId).Steps ls Clear := by
  have hinit : Calm (configVar listen n val cbs funId).init :=
    ⟨inv_initial n val cbs funId, fun t h => Nested.nil.not_selfWait h⟩
  apply System.visits_iff_steps hinit
  · intro s hs
    exact ⟨hs.waits, hs.valid⟩
  · intro s l s' hs hguard h
    exact ⟨inv_step hs.toInv h, waits_step hs.toInv hs.waits hguard h⟩
  · intro s l hs hguard
    exact step_breaks hs.toInv hguard

/-- The listener 1 removes itself when it is called. -/
theorem not_free : ¬ ∀ (listen : Unit → Nat → Nat → List (Op Unit Nat)) (n val : Nat)
    (cbs : Ordered (Prod.fst : Nat × Unit → Nat)) (funId : Nat) (ls : List (Label Unit Nat)),
    (configVar listen n val cbs funId).Visits ls Free := by
  intro h
  have hfree := h (fun _ _ _ => [.edit (.delListener 1)]) 1 0 (.single (1, ())) 1
    [.call 0 (.setValue 7), .step 0, .step 0, .step 0, .step 0] _ _ List.prefix_rfl rfl
  exact hfree.waits 0 ⟨.wrlockEdit (.delListener 1), [.body [], .op (.called 7 1)], rfl, rfl⟩

end Gwn.Config.Reenter
