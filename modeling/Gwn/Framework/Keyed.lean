import Mathlib.Logic.Function.Basic
import Mathlib.Data.List.Basic

/-! # Folds over keyed items

    A fold whose steps each read and write a table at the key of their own item.
    When no key occurs twice, the steps do not see each other: the fold does to each
    key what its item does, and leaves the other keys alone (`foldlM_keyed`); it
    fails only if an item fails by itself (`foldlM_keyed_isSome`). -/

universe u v w

namespace LTS

variable {N : Type u} {V : Type v} {D : Type w} [DecidableEq N]

/-- Item `d` acts on the table at its key. -/
def keyedStep (key : D → N) (act : D → V → Option V) (m : N → V) (d : D) :
    Option (N → V) :=
  (act d (m (key d))).map (Function.update m (key d))

variable {key : D → N} {act : D → V → Option V}

/-- An item that is not in the list does not notice the first one. -/
theorem update_key_ne (m : N → V) {d : D} {l : List D} (h : key d ∉ l.map key) (x : V) :
    ∀ e ∈ l, Function.update m (key d) x (key e) = m (key e) := by
  intro e he
  rw [Function.update_of_ne]
  rintro heq
  exact h (heq ▸ List.mem_map_of_mem he)

theorem foldlM_keyed {l : List D} (hnodup : (l.map key).Nodup) {m m' : N → V}
    (h : l.foldlM (keyedStep key act) m = some m') :
    (∀ d ∈ l, act d (m (key d)) = some (m' (key d))) ∧ ∀ n, n ∉ l.map key →
      m' n = m n := by
  induction l generalizing m with
  | nil =>
    cases h
    exact ⟨nofun, fun _ _ => rfl⟩
  | cons d l ih =>
    obtain ⟨hd, hl⟩ := List.nodup_cons.mp hnodup
    rw [List.foldlM_cons] at h
    obtain ⟨m₁, hm₁, h⟩ := Option.bind_eq_some_iff.mp h
    obtain ⟨x, hx, rfl⟩ := Option.map_eq_some_iff.mp hm₁
    obtain ⟨hact, hframe⟩ := ih hl h
    refine ⟨fun e he => ?_, fun n hn => ?_⟩
    · rcases List.mem_cons.mp he with rfl | he
      · rw [hx, hframe _ hd, Function.update_self]
      · rw [← update_key_ne m hd x e he]
        exact hact e he
    · have hne : n ≠ key d ∧ n ∉ l.map key := by simpa using hn
      rw [hframe n hne.2, Function.update_of_ne hne.1]

theorem foldlM_keyed_isSome {l : List D} (hnodup : (l.map key).Nodup) (m : N → V) :
    (l.foldlM (keyedStep key act) m).isSome = true ↔
      ∀ d ∈ l, (act d (m (key d))).isSome = true := by
  induction l generalizing m with
  | nil => exact ⟨fun _ => nofun, fun _ => rfl⟩
  | cons d l ih =>
    obtain ⟨hd, hl⟩ := List.nodup_cons.mp hnodup
    rw [List.foldlM_cons, List.forall_mem_cons]
    cases hx : act d (m (key d)) with
    | none =>
      have hstep : keyedStep key act m d = none := by simp [keyedStep, hx]
      rw [hstep]
      simp
    | some x =>
      have hstep : keyedStep key act m d = some (Function.update m (key d) x) := by
        simp [keyedStep, hx]
      have hrest := ih hl (Function.update m (key d) x)
      have hsame : (∀ e ∈ l, (act e (Function.update m (key d) x (key e))).isSome = true) ↔
          ∀ e ∈ l, (act e (m (key e))).isSome = true := by
        constructor <;> intro h e he
        · rw [← update_key_ne m hd x e he]
          exact h e he
        · rw [update_key_ne m hd x e he]
          exact h e he
      rw [hstep, ← hsame, ← hrest]
      simp

end LTS
