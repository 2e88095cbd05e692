import Gwn.Framework.System
import Mathlib.Logic.Function.Basic
import Mathlib.Logic.Relation

/-! # Nested locks in a fixed order

    Threads run code over shared data under locks that are not recursive: a thread that
    requests a lock waits until nobody holds it. If every lock has a rank and code
    requests locks only above those it holds, nobody waits in a circle. This module
    provides:

    - `Stmt`, `LockCode`, `LockCode.system`: threads, their locks, and what they run
    - `LocksOrdered`: no thread waits for itself, nor in a circle; with `locksOrdered`
    - `Balanced`, `Disciplined`: the rules for code that keeps to the ranks
    - `Disciplined.reachable`, `Disciplined.progress`: such code cannot deadlock -/

universe u

namespace LTS

/-- A statement of a thread. -/
inductive Stmt (L O : Type u) where
  | lock (x : L)
  | unlock (x : L)
  /-- A change of the data, or a call. -/
  | op (o : O)

/-- `MutexType::Lock lock(x); body`: the guard unlocks at the end of the scope. -/
def guarded {L O : Type u} (x : L) (body : List (Stmt L O)) : List (Stmt L O) :=
  .lock x :: (body ++ [.unlock x])

/-- Code for threads `T` with locks `L` and data `D`. -/
structure LockCode (T L O D : Type u) where
  init : D
  /-- What an operation makes of the data, and the statements it consists of. -/
  run : T → D → O → D × List (Stmt L O)
  /-- The operations that a thread may start. -/
  callable : D → O → Bool

namespace LockCode

structure State (T L O D : Type u) where
  data : D
  /-- Who holds a lock. -/
  owner : L → Option T
  /-- What each thread still has to do. -/
  todo : T → List (Stmt L O)

inductive Label (T O : Type u) where
  /-- A thread that has nothing to do starts an operation. -/
  | call (t : T) (o : O)
  | step (t : T)

variable {T L O D : Type u} [DecidableEq T] [DecidableEq L]

/-- The next statement of thread `t`; a lock that is held has to be waited for. -/
def threadStep (C : LockCode T L O D) (s : State T L O D) (t : T) : Option (State T L O D) :=
  match s.todo t with
  | [] => none
  | .lock x :: rest =>
    if s.owner x = none then
      some { s with
        owner := Function.update s.owner x (some t), todo := Function.update s.todo t rest }
    else none
  | .unlock x :: rest =>
    some { s with owner := Function.update s.owner x none, todo := Function.update s.todo t rest }
  | .op o :: rest =>
    let (d, body) := C.run t s.data o
    some { s with data := d, todo := Function.update s.todo t (body ++ rest) }

def step (C : LockCode T L O D) (s : State T L O D) : Label T O → Option (State T L O D)
  | .call t o =>
    match s.todo t with
    | [] =>
      if C.callable s.data o then some { s with todo := Function.update s.todo t [.op o] }
      else none
    | _ => none
  | .step t => C.threadStep s t

def system (C : LockCode T L O D) : System (State T L O D) (Label T O) where
  init := { data := C.init, owner := fun _ => none, todo := fun _ => [] }
  step := C.step

/-! ### Waiting -/

namespace State

omit [DecidableEq T] [DecidableEq L]

/-- The next statement of thread `t` locks `x`. -/
def Requests (s : State T L O D) (t : T) (x : L) : Prop :=
  (s.todo t).head? = some (.lock x)

/-- Thread `t` requests a lock that thread `u` holds. -/
def WaitsFor (s : State T L O D) (t u : T) : Prop :=
  ∃ x, s.Requests t x ∧ s.owner x = some u

end State

variable (rank : L → Nat)

structure LocksOrdered (s : State T L O D) : Prop where
  /-- No thread requests a lock that it holds. -/
  self : ∀ t x, s.Requests t x → s.owner x ≠ some t
  /-- The waits-for graph has no cycle. -/
  acyclic : ∀ t, ¬ Relation.TransGen s.WaitsFor t t
  /-- Locks are taken in the order of their ranks. -/
  nested : ∀ t x y, s.Requests t x → s.owner y = some t → rank y < rank x

section order
omit [DecidableEq T] [DecidableEq L]
variable {rank} {s : State T L O D}
  (nested : ∀ t x y, s.Requests t x → s.owner y = some t → rank y < rank x)
include nested

/-- Along a chain of waiting threads the ranks grow. -/
theorem rank_le_of_waits {t u : T} (h : Relation.TransGen s.WaitsFor t u) :
    ∃ x y, s.Requests t x ∧ s.owner y = some u ∧ rank x ≤ rank y := by
  induction h with
  | single hedge =>
    obtain ⟨x, hx, hu⟩ := hedge
    exact ⟨x, x, hx, hu, Nat.le_refl _⟩
  | tail _ hedge ih =>
    obtain ⟨x, y, hx, hy, hle⟩ := ih
    obtain ⟨z, hz, hc⟩ := hedge
    have hlt := nested _ z y hz hy
    exact ⟨x, z, hx, hc, by omega⟩

theorem locksOrdered : LocksOrdered rank s where
  self t x hx hown := Nat.lt_irrefl _ (nested t x x hx hown)
  acyclic t hcycle := by
    obtain ⟨x, y, hx, hy, hle⟩ := rank_le_of_waits nested hcycle
    have hlt := nested t x y hx hy
    omega
  nested := nested

end order

/-! ### Code that keeps to the ranks -/

section discipline
omit [DecidableEq T] [DecidableEq L]
variable (bound : O → Nat)

/-- Code of a thread that holds `held`, the last lock first: locks are requested above
    those held and given back in the opposite order, and `bound o` is below every lock
    that `o` requests. -/
def Fits : List L → List (Stmt L O) → Prop
  | held, [] => held = []
  | held, .lock x :: rest => (∀ y ∈ held, rank y < rank x) ∧ Fits (x :: held) rest
  | held, .unlock x :: rest => ∃ held', held = x :: held' ∧ Fits held' rest
  | held, .op o :: rest => (∀ y ∈ held, rank y < bound o) ∧ Fits held rest

/-- `body` can be run by a thread that holds `held`, and leaves it with these locks. -/
def Balanced (held : List L) (body : List (Stmt L O)) : Prop :=
  ∀ rest, Fits rank bound held rest → Fits rank bound held (body ++ rest)

variable {rank bound} {held : List L}

theorem Balanced.nil : Balanced rank bound held ([] : List (Stmt L O)) :=
  fun _ h => h

theorem Balanced.append {body body' : List (Stmt L O)} (h : Balanced rank bound held body)
    (h' : Balanced rank bound held body') : Balanced rank bound held (body ++ body') := by
  intro rest hrest
  rw [List.append_assoc]
  exact h _ (h' rest hrest)

theorem Balanced.cons {o : O} {body : List (Stmt L O)} (h : ∀ y ∈ held, rank y < bound o)
    (hbody : Balanced rank bound held body) : Balanced rank bound held (.op o :: body) :=
  fun rest hrest => ⟨h, hbody rest hrest⟩

theorem Balanced.op {o : O} (h : ∀ y ∈ held, rank y < bound o) :
    Balanced rank bound held [.op o] :=
  .cons h .nil

/-- A scope with a guard. -/
theorem Balanced.guarded {x : L} {body : List (Stmt L O)} (hx : ∀ y ∈ held, rank y < rank x)
    (hbody : Balanced rank bound (x :: held) body) : Balanced rank bound held (guarded x body) := by
  intro rest hrest
  refine ⟨hx, ?_⟩
  show Fits rank bound (x :: held) ((body ++ [.unlock x]) ++ rest)
  rw [List.append_assoc]
  exact hbody _ ⟨held, rfl, hrest⟩

/-- A loop. -/
theorem Balanced.flatMap {α : Type u} {l : List α} {f : α → List (Stmt L O)}
    (h : ∀ a ∈ l, Balanced rank bound held (f a)) : Balanced rank bound held (l.flatMap f) := by
  induction l with
  | nil => exact .nil
  | cons a l ih =>
    rw [List.flatMap_cons]
    exact (h a List.mem_cons_self).append (ih fun b hb => h b (List.mem_cons_of_mem a hb))

/-- Every operation keeps `Good` and requests locks only from its bound on. -/
structure Disciplined (C : LockCode T L O D) (rank : L → Nat) (bound : O → Nat)
    (Good : D → Prop) : Prop where
  init : Good C.init
  keeps : ∀ t d o, Good d → Good (C.run t d o).1
  balanced : ∀ t d o held, Good d → (∀ y ∈ held, rank y < bound o) →
    Balanced rank bound held (C.run t d o).2

end discipline

/-! ### Runs -/

section runs
variable {C : LockCode T L O D} {rank} {bound : O → Nat} {Good : D → Prop}

/-- Thread `t` holds exactly `held`, and what it has to do fits. -/
structure Holds (rank : L → Nat) (bound : O → Nat) (s : State T L O D) (t : T) (held : List L) :
    Prop where
  owner : ∀ x, s.owner x = some t ↔ x ∈ held
  nodup : held.Nodup
  fits : Fits rank bound held (s.todo t)

omit [DecidableEq T] [DecidableEq L] in
/-- Nothing changes for a thread that does not move, as long as nobody touches its locks. -/
theorem Holds.frame {s s' : State T L O D} {t : T} {held : List L} (h : Holds rank bound s t held)
    (howner : ∀ x, s'.owner x = some t ↔ s.owner x = some t) (htodo : s'.todo t = s.todo t) :
    Holds rank bound s' t held :=
  ⟨fun x => (howner x).trans (h.owner x), h.nodup, htodo ▸ h.fits⟩

/-- One step of the threads. -/
theorem Disciplined.step (hC : Disciplined C rank bound Good) {s s' : State T L O D}
    {l : Label T O} (hgood : Good s.data) (hholds : ∀ t, ∃ held, Holds rank bound s t held)
    (hstep : C.step s l = some s') :
    Good s'.data ∧ ∀ t, ∃ held, Holds rank bound s' t held := by
  -- the threads that do not move
  have others : ∀ {t : T} {todo : List (Stmt L O)}, s'.todo = Function.update s.todo t todo →
      (∀ u x, u ≠ t → (s'.owner x = some u ↔ s.owner x = some u)) →
      (∃ held, (∀ x, s'.owner x = some t ↔ x ∈ held) ∧ held.Nodup ∧
        Fits rank bound held todo) →
      ∀ u, ∃ held, Holds rank bound s' u held := by
    intro t todo htodo howner ht u
    by_cases hu : u = t
    · obtain ⟨held, hown, hnodup, hfits⟩ := ht
      subst hu
      refine ⟨held, hown, hnodup, ?_⟩
      rw [htodo, Function.update_self]
      exact hfits
    · obtain ⟨held, h⟩ := hholds u
      refine ⟨held, h.frame (fun x => howner u x hu) ?_⟩
      rw [htodo, Function.update_of_ne hu]
  cases l with
  | call t o =>
    simp only [LockCode.step] at hstep
    split at hstep
    · next hidle =>
      split at hstep <;> cases hstep
      refine ⟨hgood, others (t := t) rfl (fun _ _ _ => Iff.rfl) ?_⟩
      obtain ⟨held, h⟩ := hholds t
      have hfits := h.fits
      rw [hidle] at hfits
      -- it holds nothing
      obtain rfl : held = [] := hfits
      exact ⟨[], h.owner, h.nodup, nofun, rfl⟩
    · cases hstep
  | step t =>
    obtain ⟨held, h⟩ := hholds t
    have hfits := h.fits
    simp only [LockCode.step, threadStep] at hstep
    split at hstep
    · cases hstep
    · next x rest htodo =>
      split at hstep <;> cases hstep
      next hfree =>
      rw [htodo] at hfits
      obtain ⟨-, hrest⟩ := hfits
      have hnew : x ∉ held := by
        intro hx
        rw [(h.owner x).mpr hx] at hfree
        cases hfree
      refine ⟨hgood, others (t := t) rfl (fun u y hu => ?_)
        ⟨x :: held, fun y => ?_, List.nodup_cons.mpr ⟨hnew, h.nodup⟩, hrest⟩⟩
      · show Function.update s.owner x (some t) y = some u ↔ s.owner y = some u
        by_cases hy : y = x
        · subst hy
          simp [hfree, Ne.symm hu]
        · rw [Function.update_of_ne hy]
      · show Function.update s.owner x (some t) y = some t ↔ y ∈ x :: held
        by_cases hy : y = x
        · subst hy
          simp
        · rw [Function.update_of_ne hy, h.owner y]
          simp [hy]
    · next x rest htodo =>
      cases hstep
      rw [htodo] at hfits
      obtain ⟨held', rfl, hrest⟩ := hfits
      obtain ⟨hnot, hnodup⟩ := List.nodup_cons.mp h.nodup
      have hown : s.owner x = some t := (h.owner x).mpr List.mem_cons_self
      refine ⟨hgood,
        others (t := t) rfl (fun u y hu => ?_) ⟨held', fun y => ?_, hnodup, hrest⟩⟩
      · show Function.update s.owner x none y = some u ↔ s.owner y = some u
        by_cases hy : y = x
        · subst hy
          simp [hown, Ne.symm hu]
        · rw [Function.update_of_ne hy]
      · show Function.update s.owner x none y = some t ↔ y ∈ held'
        by_cases hy : y = x
        · subst hy
          simp [hnot]
        · rw [Function.update_of_ne hy, h.owner y]
          simp [hy]
    · next o rest htodo =>
      cases hstep
      rw [htodo] at hfits
      obtain ⟨hbound, hrest⟩ := hfits
      exact ⟨hC.keeps t s.data o hgood, others (t := t) rfl (fun _ _ _ => Iff.rfl)
        ⟨held, h.owner, h.nodup, hC.balanced t s.data o held hgood hbound rest hrest⟩⟩

theorem Disciplined.holds (hC : Disciplined C rank bound Good) :
    ∀ s, C.system.Reachable s → Good s.data ∧ ∀ t, ∃ held, Holds rank bound s t held := by
  refine System.invariant ⟨hC.init, fun t => ⟨[], fun x => ?_, List.nodup_nil, rfl⟩⟩ ?_
  · simp [system]
  · rintro s l s' ⟨hgood, hholds⟩ hstep
    exact hC.step hgood hholds hstep

/-- Such code takes its locks in the order of the ranks, in every interleaving. -/
theorem Disciplined.reachable (hC : Disciplined C rank bound Good) {s : State T L O D}
    (h : C.system.Reachable s) : LocksOrdered rank s := by
  apply locksOrdered
  intro t x y hx hy
  obtain ⟨held, hheld⟩ := (hC.holds s h).2 t
  have hfits := hheld.fits
  obtain ⟨rest, htodo⟩ : ∃ rest, s.todo t = .lock x :: rest := by
    cases htodo : s.todo t with
    | nil => simp [State.Requests, htodo] at hx
    | cons a rest =>
      obtain rfl : a = .lock x := by simpa [State.Requests, htodo] using hx
      exact ⟨rest, rfl⟩
  rw [htodo] at hfits
  exact hfits.1 y ((hheld.owner y).mp hy)

/-- As long as some thread has something to do, some thread can go on, if the ranks are
    bounded. -/
theorem Disciplined.progress (hC : Disciplined C rank bound Good) {s : State T L O D}
    (h : C.system.Reachable s) {top : Nat} (htop : ∀ x, rank x ≤ top) {t : T}
    (ht : s.todo t ≠ []) : ∃ u, (C.step s (.step u)).isSome := by
  -- whoever holds the lock that is waited for has a lock of higher rank to wait for, or goes on
  suffices hchain : ∀ n t, s.todo t ≠ [] → (∀ x, s.Requests t x → top < rank x + n) →
      ∃ u, (C.step s (.step u)).isSome from
    hchain (top + 1) t ht fun x _ => by omega
  intro n
  induction n with
  | zero =>
    intro t ht hx
    refine ⟨t, ?_⟩
    cases htodo : s.todo t with
    | nil => exact absurd htodo ht
    | cons a rest =>
      cases a with
      | lock x =>
        have hlt := hx x (by simp [State.Requests, htodo])
        have hle := htop x
        omega
      | unlock x => simp [LockCode.step, threadStep, htodo]
      | op o => simp [LockCode.step, threadStep, htodo]
  | succ n ih =>
    intro t ht hx
    cases htodo : s.todo t with
    | nil => exact absurd htodo ht
    | cons a rest =>
      cases a with
      | unlock x => exact ⟨t, by simp [LockCode.step, threadStep, htodo]⟩
      | op o => exact ⟨t, by simp [LockCode.step, threadStep, htodo]⟩
      | lock x =>
        have hrequest : s.Requests t x := by simp [State.Requests, htodo]
        cases howner : s.owner x with
        | none => exact ⟨t, by simp [LockCode.step, threadStep, htodo, howner]⟩
        | some u =>
          obtain ⟨held, hheld⟩ := (hC.holds s h).2 u
          have hmem : x ∈ held := (hheld.owner x).mp howner
          have hbusy : s.todo u ≠ [] := by
            intro hidle
            have hfits := hheld.fits
            rw [hidle] at hfits
            obtain rfl : held = [] := hfits
            cases hmem
          refine ih u hbusy fun y hy => ?_
          have hup := (hC.reachable h).nested u y x hy howner
          have hlow := hx x hrequest
          omega

end runs

end LockCode

end LTS
