import Mathlib.Logic.Function.Basic

/-! # Reader-writer locks

    Threads `0, ..., n - 1` share one reader-writer lock. Who holds it, and how, is
    read off the threads' program counters by a function `mode`, so the lock has no
    state of its own: a thread may go on to a program counter that holds the lock
    if no other thread holds it in a conflicting way (`MayLock`). Then it is held by
    readers or by one writer, whatever the threads do (`Locked.update`). -/

universe u

namespace LTS

inductive Mode where
  | free | read | write
deriving DecidableEq, Repr

/-- A lock in one mode can be granted next to a holder in the other. -/
def Mode.compatible : Mode → Mode → Bool
  | .free, _ | _, .free | .read, .read => true
  | _, _ => false

theorem Mode.compatible_comm (m m' : Mode) : m.compatible m' = m'.compatible m := by
  cases m <;> cases m' <;> rfl

theorem Mode.free_compatible (m : Mode) : Mode.free.compatible m = true := by
  cases m <;> rfl

/-- What is held next to a writer is not held. -/
theorem Mode.free_of_write {m : Mode} (h : Mode.write.compatible m = true) : m = .free := by
  cases m with
  | free => rfl
  | _ => cases h

variable {P : Type u} {mode : P → Mode} {n : Nat} {pc : Nat → P}

/-- A thread that waits for the lock in mode `m` is granted it. -/
def MayLock (mode : P → Mode) (n : Nat) (pc : Nat → P) (m : Mode) : Prop :=
  ∀ t, t < n → m.compatible (mode (pc t)) = true

instance (m : Mode) : Decidable (MayLock mode n pc m) :=
  inferInstanceAs (Decidable (∀ t, t < n → m.compatible (mode (pc t)) = true))

/-- Any two threads hold the lock in compatible ways. -/
structure Locked (mode : P → Mode) (n : Nat) (pc : Nat → P) : Prop where
  outside : ∀ t, n ≤ t → mode (pc t) = .free
  compatible : ∀ t t', t ≠ t' → (mode (pc t)).compatible (mode (pc t')) = true

namespace Locked

/-- A thread goes on, keeping the lock as it has it, releasing it, or being granted it. -/
theorem update (h : Locked mode n pc) {t : Nat} {x : P} (ht : t < n)
    (hx : mode x = mode (pc t) ∨ mode x = .free ∨ MayLock mode n pc (mode x)) :
    Locked mode n (Function.update pc t x) := by
  -- the new holder goes with every other thread
  have hnew : ∀ t', t' ≠ t → (mode x).compatible (mode (pc t')) = true := by
    intro t' hne
    rcases hx with hx | hx | hx
    · rw [hx]
      exact h.compatible t t' (Ne.symm hne)
    · rw [hx]
      exact Mode.free_compatible _
    · by_cases hlt : t' < n
      · exact hx t' hlt
      · rw [h.outside t' (Nat.le_of_not_lt hlt), Mode.compatible_comm]
        exact Mode.free_compatible _
  refine ⟨fun u hu => ?_, fun u u' hne => ?_⟩
  · rw [Function.update_of_ne (by omega)]
    exact h.outside u hu
  · by_cases hut : u = t <;> by_cases hut' : u' = t
    · exact absurd (hut.trans hut'.symm) hne
    · rw [hut, Function.update_self, Function.update_of_ne hut']
      exact hnew u' hut'
    · rw [hut', Function.update_self, Function.update_of_ne hut, Mode.compatible_comm]
      exact hnew u hut
    · rw [Function.update_of_ne hut, Function.update_of_ne hut']
      exact h.compatible u u' hne

/-- While one thread writes, no other one holds the lock. -/
theorem alone (h : Locked mode n pc) {t t' : Nat} (ht : mode (pc t) = .write) (hne : t' ≠ t) :
    mode (pc t') = .free := by
  have hcomp := h.compatible t t' (Ne.symm hne)
  rw [ht] at hcomp
  exact Mode.free_of_write hcomp

end Locked

end LTS
