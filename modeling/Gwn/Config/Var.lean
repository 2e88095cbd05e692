import Gwn.Framework.Ordered
import Gwn.Framework.RWLock
import Gwn.Framework.System

/-! # Configuration variables under concurrency

    `ConfigVar<T>` (gwn/config.h) as one transition system of the threads that use
    one variable. A step is one action under `m_mutex` or the locking itself; the
    read-locked section of `setValue` (compare and notify) and its write-locked
    section (assign) are separate. The listeners do not throw and do not call back
    into the variable, so all that is seen of them is the list of their calls.

    - `PC`, `State`, `step`: the operations, section by section
    - `History`: what a listener should have been told when no `setValue` is in progress
    - `not_history`: two overlapping calls of `setValue` tell it something else
    - `history_consistent`: it holds when the compare of no call falls between the
      compare and the assignment of another -/

namespace Gwn.Config

open LTS

variable {T : Type}

/-! ### The variable -/

/-- What a thread does to `m_cbs` under the write lock. -/
inductive Edit where
  | addListener
  | delListener (key : Nat)
  | clearListener
deriving DecidableEq

/-- Where a thread is in an operation of the variable. -/
inductive PC (T : Type) where
  | idle
  /-- `setValue`: construction of the `ReadLock`. -/
  | rdlock (v : T)
  /-- `if(v == m_val)`. -/
  | compare (v : T)
  /-- The loop over `m_cbs`, at its `i`-th entry. -/
  | notify (v : T) (i : Nat)
  /-- Between the two sections: construction of the `WriteLock`. -/
  | wrlock (v : T)
  /-- `m_val = v`. -/
  | assign (v : T)
  /-- `getValue`, `toString`, `getListener`. -/
  | rdlockGet
  | get
  | wrlockEdit (e : Edit)
  | edit (e : Edit)
deriving DecidableEq

/-- How `m_mutex` is held. -/
def PC.mode : PC T → Mode
  | .compare _ | .notify _ _ | .get => .read
  | .assign _ | .edit _ => .write
  | _ => .free

/-- Inside `setValue`. -/
def PC.setting : PC T → Bool
  | .rdlock _ | .compare _ | .notify _ _ | .wrlock _ | .assign _ => true
  | _ => false

/-- Inside `setValue`, which has found a difference and has not assigned yet. -/
def PC.changing : PC T → Bool
  | .notify _ _ | .wrlock _ | .assign _ => true
  | _ => false

/-- The call `cb(old_value, new_value)` of the listener with this key. -/
structure Note (T : Type) where
  key : Nat
  old : T
  new : T
deriving DecidableEq

structure State (T : Type) where
  /-- `m_val`. -/
  val : T
  /-- The keys of `m_cbs`. -/
  cbs : Ordered (id : Nat → Nat)
  /-- `s_fun_id`, which all variables of the type share. -/
  funId : Nat
  pc : Nat → PC T
  /-- Threads with ids below `nthreads` use the variable. -/
  nthreads : Nat
  /-- The calls of listeners so far. -/
  notified : List (Note T)

/-- The operations of the variable. -/
inductive Op (T : Type) where
  | setValue (v : T)
  | fromString (val : String)
  /-- `getValue`, `toString` or `getListener`. -/
  | get
  | edit (e : Edit)
deriving DecidableEq

inductive Label (T : Type) where
  /-- Thread `t` calls an operation. -/
  | call (t : Nat) (op : Op T)
  /-- Thread `t` takes its next step in it. -/
  | step (t : Nat)
  /-- `addListener` of another variable of the type has left `s_fun_id` at `id`. -/
  | elsewhere (id : Nat)
deriving DecidableEq

def State.setPC (s : State T) (t : Nat) (pc : PC T) : State T :=
  { s with pc := Function.update s.pc t pc }

/-- `i.second(m_val, v)`. -/
def State.notify (s : State T) (x : Note T) : State T :=
  { s with notified := s.notified ++ [x] }

/-- The start of an operation. `fromString` catches what `FromStr` throws. -/
def Op.start (fromStr : String → Option T) : Op T → PC T
  | .setValue v => .rdlock v
  | .fromString val =>
    match fromStr val with
    | some v => .rdlock v
    | none => .idle
  | .get => .rdlockGet
  | .edit e => .wrlockEdit e

/-- `m_cbs` and `s_fun_id` after an edit. -/
def Edit.apply (s : State T) : Edit → State T
  | .addListener =>
    let id := (s.funId + 1) % 2 ^ 64
    { s with funId := id, cbs := s.cbs.assign id }
  | .delListener key => { s with cbs := s.cbs.erase key }
  | .clearListener => { s with cbs := Ordered.empty }

/-- The next step of thread `t`. Leaving a section releases the lock. -/
def threadStep [BEq T] (s : State T) (t : Nat) : Option (State T) :=
  match s.pc t with
  | .idle => none
  | .rdlock v =>
    if MayLock PC.mode s.nthreads s.pc .read then some (s.setPC t (.compare v)) else none
  | .compare v => if v == s.val then some (s.setPC t .idle) else some (s.setPC t (.notify v 0))
  | .notify v i =>
    match s.cbs.entries[i]? with
    | some key =>
      some ((s.notify ⟨key, s.val, v⟩).setPC t (.notify v (i + 1)))
    | none => some (s.setPC t (.wrlock v))
  | .wrlock v =>
    if MayLock PC.mode s.nthreads s.pc .write then some (s.setPC t (.assign v)) else none
  | .assign v => some ({ s with val := v }.setPC t .idle)
  | .rdlockGet => if MayLock PC.mode s.nthreads s.pc .read then some (s.setPC t .get) else none
  | .get => some (s.setPC t .idle)
  | .wrlockEdit e =>
    if MayLock PC.mode s.nthreads s.pc .write then some (s.setPC t (.edit e)) else none
  | .edit e => some ((e.apply s).setPC t .idle)

def step [BEq T] (fromStr : String → Option T) (s : State T) : Label T → Option (State T)
  | .call t op =>
    match s.pc t with
    | .idle => if t < s.nthreads then some (s.setPC t (op.start fromStr)) else none
    | _ => none
  | .step t => if t < s.nthreads then threadStep s t else none
  | .elsewhere id => some { s with funId := id }

/-- A variable with the value `val` and registered listeners `cbs`, about to be
    used by `n` threads. -/
def State.initial (n : Nat) (val : T) (cbs : Ordered (id : Nat → Nat)) (funId : Nat) : State T :=
  { val := val, cbs := cbs, funId := funId, pc := fun _ => .idle, nthreads := n, notified := [] }

def configVar [BEq T] (fromStr : String → Option T) (n : Nat) (val : T)
    (cbs : Ordered (id : Nat → Nat)) (funId : Nat) : System (State T) (Label T) where
  init := .initial n val cbs funId
  step := step fromStr

/-! ### The history of a listener -/

/-- Changes that lead from `a` to `b`, each beginning where the one before ends. -/
def Chain : T → List (T × T) → T → Prop
  | a, [], b => a = b
  | a, (old, new) :: l, b => old = a ∧ Chain new l b

theorem chain_snoc {a b old new : T} {l : List (T × T)} :
    Chain a (l ++ [(old, new)]) b ↔ Chain a l old ∧ new = b := by
  induction l generalizing a with
  | nil => exact and_congr_left fun _ => eq_comm
  | cons x l ih =>
    show x.1 = a ∧ Chain x.2 (l ++ [(old, new)]) b ↔ (x.1 = a ∧ Chain x.2 l old) ∧ new = b
    rw [ih, and_assoc]

/-- What the listener `key` has been told. -/
def State.told (s : State T) (key : Nat) : List (T × T) :=
  (s.notified.filter fun x => x.key = key).map fun x => (x.old, x.new)

/-- Whenever no `setValue` is in progress, the listener has been told one chain of
    changes from the initial value to `m_val`. -/
def History (key : Nat) (initial : T) (s : State T) : Prop :=
  (∀ t, t < s.nthreads → (s.pc t).setting = false) → Chain initial (s.told key) s.val

/-- The listener `key` stays registered. -/
def Keeps (key : Nat) (s : State T) : Label T → Prop
  | .step t =>
    match s.pc t with
    | .edit .addListener => (s.funId + 1) % 2 ^ 64 ≠ key
    | .edit (.delListener k) => k ≠ key
    | .edit .clearListener => False
    | _ => True
  | _ => True

instance (key : Nat) (s : State T) (l : Label T) : Decidable (Keeps key s l) := by
  unfold Keeps
  split
  · split <;> infer_instance
  · infer_instance

/-- When `setValue` finds a difference, no other call is between the same finding
    and its assignment. -/
def Alone [BEq T] (s : State T) : Label T → Prop
  | .step t =>
    match s.pc t with
    | .compare v => (v == s.val) = false → ∀ t', t' < s.nthreads → (s.pc t').changing = false
    | _ => True
  | _ => True

instance [BEq T] (s : State T) (l : Label T) : Decidable (Alone s l) := by
  unfold Alone
  split
  · split <;> infer_instance
  · infer_instance

/-- Two threads set the variable, and both compare before one assigns. -/
def overlapping : List (Label Nat) :=
  [.call 0 (.setValue 1), .call 1 (.setValue 2), .step 0, .step 1, .step 0, .step 1,
    .step 0, .step 0, .step 1, .step 1, .step 0, .step 0, .step 1, .step 1]

/-- The listener is told of a change from 0 to 1 and then of one from 0 to 2. -/
theorem not_history :
    ¬ ∀ s, ((configVar (fun _ => none) 2 0 (.single 1) 1).restrict (Keeps 1)).Reachable s →
    History 1 0 s := by
  intro h
  have hchain := h _ (System.reachable_get overlapping (by decide)) (by decide)
  have htold : Chain 0 [(0, 1), (0, 2)] 2 := hchain
  exact absurd htold.2.1 (by decide)

/-! ### One change at a time -/

/-- The value that the listener has last been told of when it has been told of all
    changes, and a thread at `pc` may be telling of another one. -/
def State.believed (s : State T) (key : Nat) : PC T → T
  | .notify v i => if key ∈ s.cbs.entries.take i then v else s.val
  | .wrlock v | .assign v => v
  | _ => s.val

/-- An operation starts outside the lock. -/
theorem start_free (fromStr : String → Option T) (op : Op T) :
    (op.start fromStr).changing = false ∧ (op.start fromStr).mode = .free := by
  cases op with
  | fromString val =>
    simp only [Op.start]
    split <;> exact ⟨rfl, rfl⟩
  | _ => exact ⟨rfl, rfl⟩

structure Inv (key : Nat) (initial : T) (s : State T) : Prop where
  absent : ∀ t, s.nthreads ≤ t → s.pc t = .idle
  locked : Locked PC.mode s.nthreads s.pc
  kept : key ∈ s.cbs
  one : ∀ t t', (s.pc t).changing = true → (s.pc t').changing = true → t = t'
  told : ∀ t, (s.pc t).changing = true → Chain initial (s.told key) (s.believed key (s.pc t))
  rest : (∀ t, (s.pc t).changing = false) → Chain initial (s.told key) s.val

namespace Inv

variable {key : Nat} {initial : T} {s s' : State T}

/-- Thread `t` moves to `x`. -/
theorem move (h : Inv key initial s) {t : Nat} {x : PC T} (ht : t < s.nthreads)
    (hpc : s'.pc = Function.update s.pc t x) (hn : s'.nthreads = s.nthreads)
    (hmode : x.mode = (s.pc t).mode ∨ x.mode = .free ∨ MayLock PC.mode s.nthreads s.pc x.mode)
    (hkept : key ∈ s'.cbs)
    (halone : x.changing = true → ∀ t', t' ≠ t → (s.pc t').changing = false)
    (hself : x.changing = true → Chain initial (s'.told key) (s'.believed key x))
    (hothers : ∀ t', t' ≠ t → (s.pc t').changing = true →
      Chain initial (s'.told key) (s'.believed key (s.pc t')))
    (hrest : x.changing = false → (∀ t', t' ≠ t → (s.pc t').changing = false) →
      Chain initial (s'.told key) s'.val) : Inv key initial s' := by
  have hat : s'.pc t = x := by rw [hpc, Function.update_self]
  have hne : ∀ t', t' ≠ t → s'.pc t' = s.pc t' := by
    intro t' ht'
    rw [hpc, Function.update_of_ne ht']
  refine ⟨fun u hu => ?_, ?_, hkept, fun u u' hu hu' => ?_, fun u hu => ?_, fun hnone => ?_⟩
  · rw [hn] at hu
    rw [hne u (by omega)]
    exact h.absent u hu
  · rw [hn, hpc]
    exact h.locked.update ht hmode
  · by_cases hut : u = t <;> by_cases hut' : u' = t
    · rw [hut, hut']
    · rw [hut, hat] at hu
      rw [hne u' hut'] at hu'
      exact absurd (hu'.symm.trans (halone hu u' hut')) nofun
    · rw [hut', hat] at hu'
      rw [hne u hut] at hu
      exact absurd (hu.symm.trans (halone hu' u hut)) nofun
    · rw [hne u hut] at hu
      rw [hne u' hut'] at hu'
      exact h.one u u' hu hu'
  · by_cases hut : u = t
    · rw [hut, hat] at hu ⊢
      exact hself hu
    · rw [hne u hut] at hu ⊢
      exact hothers u hut hu
  · apply hrest
    · rw [← hat]
      exact hnone t
    · intro t' ht'
      rw [← hne t' ht']
      exact hnone t'

/-- Thread `t` moves outside the part of `setValue` that changes the variable. -/
theorem quiet (h : Inv key initial s) {t : Nat} (x : PC T) (ht : t < s.nthreads)
    (hbefore : (s.pc t).changing = false) (hafter : x.changing = false)
    (hmode : x.mode = (s.pc t).mode ∨ x.mode = .free ∨ MayLock PC.mode s.nthreads s.pc x.mode) :
    Inv key initial (s.setPC t x) := by
  have hnot : x.changing ≠ true := by simp [hafter]
  refine h.move ht rfl rfl hmode h.kept (fun hx => absurd hx hnot) (fun hx => absurd hx hnot)
    (fun t' _ ht' => h.told t' ht') fun _ hothers => h.rest fun u => ?_
  by_cases hut : u = t
  · rw [hut, hbefore]
  · exact hothers u hut

/-- When one thread changes the variable, no other one does. -/
theorem others (h : Inv key initial s) {t : Nat} (ht : (s.pc t).changing = true) :
    ∀ t', t' ≠ t → (s.pc t').changing = false := by
  intro t' hne
  by_contra hchanging
  exact hne (h.one t' t (by simpa using hchanging) ht)

/-- Thread `t` goes on with its change. -/
theorem goOn (h : Inv key initial s) {t : Nat} {x : PC T} (ht : t < s.nthreads)
    (hbefore : (s.pc t).changing = true) (hafter : x.changing = true)
    (hpc : s'.pc = Function.update s.pc t x) (hn : s'.nthreads = s.nthreads)
    (hmode : x.mode = (s.pc t).mode ∨ x.mode = .free ∨ MayLock PC.mode s.nthreads s.pc x.mode)
    (hcbs : s'.cbs = s.cbs) (hself : Chain initial (s'.told key) (s'.believed key x)) :
    Inv key initial s' := by
  have hnone := h.others hbefore
  refine h.move ht hpc hn hmode (hcbs ▸ h.kept) (fun _ => hnone) (fun _ => hself)
    (fun t' hne ht' => ?_) fun hx => ?_
  · exact absurd (ht'.symm.trans (hnone t' hne)) nofun
  · exact absurd (hafter.symm.trans hx) nofun

end Inv

/-- One call of the loop over `m_cbs`. -/
theorem told_notify {s : State T} (key : Nat) (v : T) {i k : Nat}
    (hk : s.cbs.entries[i]? = some k) :
    (s.notify ⟨k, s.val, v⟩).told key =
        (if k = key then s.told key ++ [(s.val, v)] else s.told key) ∧
      (key ∈ s.cbs.entries.take (i + 1) ↔ k = key ∨ key ∈ s.cbs.entries.take i) ∧
      (k = key → key ∉ s.cbs.entries.take i) := by
  obtain ⟨hi, hget⟩ := List.getElem?_eq_some_iff.mp hk
  refine ⟨?_, ?_, ?_⟩
  · by_cases hkey : k = key
    · simp [State.told, State.notify, hkey]
    · simp [State.told, State.notify, hkey]
  · rw [List.take_succ_eq_append_getElem hi, hget, List.mem_append, List.mem_singleton, or_comm]
    exact or_congr_left eq_comm
  · -- the keys before the `i`-th are smaller
    rintro rfl hmem
    obtain ⟨j, hj, hjget⟩ := List.mem_iff_getElem.mp hmem
    rw [List.length_take] at hj
    rw [List.getElem_take] at hjget
    have hlt := List.pairwise_iff_getElem.mp s.cbs.sorted j i (by omega) hi (by omega)
    rw [hjget, hget] at hlt
    exact Nat.lt_irrefl _ hlt

theorem Inv.threadStep [BEq T] {key : Nat} {initial : T} {s s' : State T} {t : Nat}
    (h : Inv key initial s) (hkeep : Keeps key s (.step t)) (halone : Alone s (.step t))
    (ht : t < s.nthreads) (hstep : Config.threadStep s t = some s') : Inv key initial s' := by
  unfold Config.threadStep at hstep
  split at hstep
  · cases hstep
  · next v hpc =>
    split at hstep <;> cases hstep
    next hlock => exact h.quiet _ ht (by rw [hpc]; rfl) rfl (.inr (.inr hlock))
  · next v hpc =>
    split at hstep <;> cases hstep
    · exact h.quiet _ ht (by rw [hpc]; rfl) rfl (.inr (.inl rfl))
    · next hne =>
      -- nobody is changing the variable, so the listener knows `m_val`
      have hnone : ∀ t', (s.pc t').changing = false := by
        intro t'
        by_cases hlt : t' < s.nthreads
        · simp only [Alone, hpc] at halone
          exact halone (by simpa using hne) t' hlt
        · rw [h.absent t' (Nat.le_of_not_lt hlt)]
          rfl
      refine h.move (x := .notify v 0) ht rfl rfl (.inl (by rw [hpc]; rfl)) h.kept
        (fun _ t' _ => hnone t') (fun _ => ?_) (fun t' _ ht' => ?_) nofun
      · show Chain initial (s.told key) (if key ∈ s.cbs.entries.take 0 then v else s.val)
        rw [if_neg (by simp)]
        exact h.rest hnone
      · exact absurd (ht'.symm.trans (hnone t')) nofun
  · next v i hpc =>
    have hchanging : (s.pc t).changing = true := by rw [hpc]; rfl
    have htold := h.told t hchanging
    rw [hpc] at htold
    have htold :
        Chain initial (s.told key) (if key ∈ s.cbs.entries.take i then v else s.val) := htold
    split at hstep <;> cases hstep
    · next k hk =>
      obtain ⟨hnotes, hmem, hnew⟩ := told_notify key v hk
      refine h.goOn ht hchanging rfl rfl rfl (.inl (by rw [hpc]; rfl)) rfl ?_
      show Chain initial ((s.notify ⟨k, s.val, v⟩).told key)
        (if key ∈ s.cbs.entries.take (i + 1) then v else s.val)
      rw [hnotes]
      by_cases hkey : k = key
      · rw [if_pos hkey, if_pos (hmem.mpr (.inl hkey)), chain_snoc]
        rw [if_neg (hnew hkey)] at htold
        exact ⟨htold, rfl⟩
      · have hsame : key ∈ s.cbs.entries.take (i + 1) ↔ key ∈ s.cbs.entries.take i :=
          hmem.trans (or_iff_right hkey)
        rw [if_neg hkey, if_congr hsame rfl rfl]
        exact htold
    · next hend =>
      -- the loop has come past the listener
      have hmem : key ∈ s.cbs.entries.take i := by
        rw [List.take_of_length_le (List.getElem?_eq_none_iff.mp hend)]
        exact h.kept
      rw [if_pos hmem] at htold
      exact h.goOn ht hchanging rfl rfl rfl (.inr (.inl rfl)) rfl htold
  · next v hpc =>
    have hchanging : (s.pc t).changing = true := by rw [hpc]; rfl
    have htold := h.told t hchanging
    split at hstep <;> cases hstep
    next hlock =>
    rw [hpc] at htold
    exact h.goOn ht hchanging rfl rfl rfl (.inr (.inr hlock)) rfl htold
  · next v hpc =>
    have hchanging : (s.pc t).changing = true := by rw [hpc]; rfl
    have htold := h.told t hchanging
    have hnone := h.others hchanging
    cases hstep
    rw [hpc] at htold
    refine h.move (x := .idle) ht rfl rfl (.inr (.inl rfl)) h.kept nofun nofun
      (fun t' hne ht' => ?_)
      fun _ _ => htold
    exact absurd (ht'.symm.trans (hnone t' hne)) nofun
  · next hpc =>
    split at hstep <;> cases hstep
    next hlock => exact h.quiet _ ht (by rw [hpc]; rfl) rfl (.inr (.inr hlock))
  · next hpc =>
    cases hstep
    exact h.quiet _ ht (by rw [hpc]; rfl) rfl (.inr (.inl rfl))
  · next e hpc =>
    split at hstep <;> cases hstep
    next hlock => exact h.quiet _ ht (by rw [hpc]; rfl) rfl (.inr (.inr hlock))
  · next e hpc =>
    cases hstep
    -- the write lock keeps every other thread out of the loop over `m_cbs`
    have hfree : ∀ t', t' ≠ t → (s.pc t').mode = .free := fun t' hne =>
      h.locked.alone (by rw [hpc]; rfl) hne
    have hfields : (e.apply s).val = s.val ∧ (e.apply s).notified = s.notified ∧
        (e.apply s).pc = s.pc ∧ (e.apply s).nthreads = s.nthreads := by
      cases e <;> exact ⟨rfl, rfl, rfl, rfl⟩
    have hkept : key ∈ (e.apply s).cbs := by
      simp only [Keeps, hpc] at hkeep
      cases e with
      | addListener => exact Ordered.mem_assign.mpr (.inr ⟨h.kept, Ne.symm hkeep⟩)
      | delListener k => exact Ordered.mem_erase.mpr ⟨h.kept, Ne.symm hkeep⟩
      | clearListener => exact hkeep.elim
    have htold : ((e.apply s).setPC t .idle).told key = s.told key := by
      unfold State.told
      rw [show ((e.apply s).setPC t .idle).notified = s.notified from hfields.2.1]
    have hval : ((e.apply s).setPC t .idle).val = s.val := hfields.1
    refine h.move (x := .idle) ht ?_ hfields.2.2.2 (.inr (.inl rfl)) hkept nofun nofun
      (fun t' hne ht' => ?_) fun _ hothers => ?_
    · show Function.update (e.apply s).pc t .idle = _
      rw [hfields.2.2.1]
    · have hsame :
          ((e.apply s).setPC t .idle).believed key (s.pc t') = s.believed key (s.pc t') := by
        have hmode := hfree t' hne
        match hpc' : s.pc t', hmode with
        | .wrlock v, _ => rfl
        | .idle, _ => exact hval
        | .rdlock v, _ => exact hval
        | .rdlockGet, _ => exact hval
        | .wrlockEdit e', _ => exact hval
      rw [htold, hsame]
      exact h.told t' ht'
    · rw [htold, hval]
      apply h.rest
      intro u
      by_cases hut : u = t
      · rw [hut, hpc]
        rfl
      · exact hothers u hut

theorem Inv.step [BEq T] {fromStr : String → Option T} {key : Nat} {initial : T}
    {s s' : State T} {l : Label T} (h : Inv key initial s) (hkeep : Keeps key s l)
    (halone : Alone s l) (hstep : Config.step fromStr s l = some s') : Inv key initial s' := by
  cases l with
  | elsewhere id =>
    cases hstep
    exact ⟨h.absent, h.locked, h.kept, h.one, h.told, h.rest⟩
  | call t op =>
    simp only [Config.step] at hstep
    split at hstep
    · next hpc =>
      split at hstep <;> cases hstep
      next ht =>
      obtain ⟨hafter, hmode⟩ := start_free fromStr op
      exact h.quiet _ ht (by rw [hpc]; rfl) hafter (.inr (.inl hmode))
    · cases hstep
  | step t =>
    simp only [Config.step] at hstep
    split at hstep
    · next ht => exact h.threadStep hkeep halone ht hstep
    · cases hstep

/-- For every type of values, every comparison of them, any number of threads and any
    interleaving of their operations: a listener that stays registered is told one
    chain of changes from the initial value to `m_val`, if no call of `setValue`
    finds a difference while another one has found one and not assigned yet. -/
theorem history_consistent [BEq T] {fromStr : String → Option T} {n : Nat} {initial : T}
    {cbs : Ordered (id : Nat → Nat)} {funId key : Nat} (hkey : key ∈ cbs) {s : State T}
    (h : (((configVar fromStr n initial cbs funId).restrict (Keeps key)).restrict Alone).Reachable
      s) :
    History key initial s := by
  have hinv : ∀ s, (((configVar fromStr n initial cbs funId).restrict (Keeps key)).restrict
      Alone).Reachable s → Inv key initial s := by
    apply System.restrict_invariant
    · exact ⟨fun _ _ => rfl, ⟨fun _ _ => rfl, fun _ _ _ => rfl⟩, hkey, nofun,
        nofun, fun _ => rfl⟩
    · intro s l s' hs halone hstep
      obtain ⟨hkeep, hstep⟩ := System.restrict_step.mp hstep
      exact hs.step hkeep halone hstep
  intro hnone
  have hs := hinv s h
  apply hs.rest
  intro t
  by_cases ht : t < s.nthreads
  · have hsetting := hnone t ht
    cases hpc : s.pc t <;> first | rfl | (rw [hpc] at hsetting; cases hsetting)
  · rw [hs.absent t (Nat.le_of_not_lt ht)]
    rfl

/-- The second call compares after the first one has assigned. -/
def oneAfterTheOther : List (Label Nat) :=
  [.call 0 (.setValue 1), .call 1 (.setValue 2), .step 0, .step 0, .step 0, .step 0,
    .step 0, .step 0, .step 1, .step 1, .step 1, .step 1, .step 1, .step 1]

theorem history_consistent_serial :
    ∃ s, (((configVar (fun _ => none) 2 0 (.single 1) 1).restrict (Keeps 1)).restrict Alone).exec
        (.initial 2 0 (.single 1) 1) oneAfterTheOther = some s ∧
      s.told 1 = [(0, 1), (1, 2)] ∧ s.val = 2 ∧ History 1 0 s := by
  have hrun :
      ((((configVar (fun _ => none) 2 0 (.single 1) 1).restrict (Keeps 1)).restrict Alone).exec
      (.initial 2 0 (.single 1) 1) oneAfterTheOther).isSome := by decide
  exact ⟨_, (Option.some_get hrun).symm, rfl, rfl,
    history_consistent (Ordered.mem_single.mpr rfl) (System.reachable_get oneAfterTheOther hrun)⟩

end Gwn.Config
