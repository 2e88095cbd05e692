import Mathlib.Algebra.BigOperators.Group.Finset.Basic
import Mathlib.Algebra.Order.BigOperators.Group.Finset

/-! # Totals over the components of a state

    `total μ c n` sums a measure `μ` over the components `c 0, ..., c (n - 1)`
    (processes, threads, nodes) of a state. A step of one component changes the
    total by the change of that component's measure; the lemmas say so without
    subtraction, so they also serve multiset-valued measures. -/

universe u v

namespace LTS

variable {α : Type u} {M : Type v} [AddCommMonoid M]

/-- The measure `μ`, summed over the first `n` components. -/
def total (μ : α → M) (c : Nat → α) (n : Nat) : M :=
  ∑ i ∈ Finset.range n, μ (c i)

theorem total_congr {μ μ' : α → M} {c c' : Nat → α} {n : Nat}
    (h : ∀ i, i < n → μ (c i) = μ' (c' i)) : total μ c n = total μ' c' n :=
  Finset.sum_congr rfl fun i hi => h i (Finset.mem_range.mp hi)

/-- One component below `n` moves; what the others measure stays. -/
theorem total_split (μ μ' : α → M) {c c' : Nat → α} {n i : Nat} (hi : i < n)
    (h : ∀ j, j < n → j ≠ i → μ' (c' j) = μ (c j)) :
    ∃ r, total μ c n = μ (c i) + r ∧ total μ' c' n = μ' (c' i) + r := by
  have hmem : i ∈ Finset.range n := Finset.mem_range.mpr hi
  refine ⟨∑ j ∈ (Finset.range n).erase i, μ (c j),
    (Finset.add_sum_erase _ _ hmem).symm, ?_⟩
  have hrest : ∑ j ∈ (Finset.range n).erase i, μ' (c' j)
      = ∑ j ∈ (Finset.range n).erase i, μ (c j) := by
    apply Finset.sum_congr rfl
    intro j hj
    exact h j (Finset.mem_range.mp (Finset.mem_of_mem_erase hj)) (Finset.ne_of_mem_erase hj)
  rw [← hrest]
  exact (Finset.add_sum_erase _ (fun j => μ' (c' j)) hmem).symm

theorem total_update (μ : α → M) (c : Nat → α) {n i : Nat} (x : α) (hi : i < n) :
    total μ (Function.update c i x) n + μ (c i) = total μ c n + μ x := by
  have hother : ∀ j, j < n → j ≠ i → μ (Function.update c i x j) = μ (c j) := by
    intro j _ hj
    rw [Function.update_of_ne hj]
  obtain ⟨r, hbefore, hafter⟩ := total_split μ μ hi hother
  rw [hbefore, hafter, Function.update_self]
  ac_rfl

/-- A component with a measure of zero is added. -/
theorem total_grow {μ : α → M} {c : Nat → α} {n m : Nat} (hle : n ≤ m)
    (h : ∀ i, n ≤ i → i < m → μ (c i) = 0) : total μ c m = total μ c n := by
  induction m with
  | zero => rw [Nat.le_zero.mp hle]
  | succ m ih =>
    rcases Nat.eq_or_lt_of_le hle with rfl | hlt
    · rfl
    · have hlast : μ (c m) = 0 := h m (by omega) (by omega)
      have hinit : total μ c m = total μ c n :=
        ih (by omega) fun i h₁ h₂ => h i h₁ (by omega)
      unfold total at hinit ⊢
      rw [Finset.sum_range_succ, hlast, add_zero, hinit]

theorem total_eq_zero {μ : α → M} {c : Nat → α} {n : Nat}
    (h : ∀ i, i < n → μ (c i) = 0) :
    total μ c n = 0 :=
  Finset.sum_eq_zero fun i hi => h i (Finset.mem_range.mp hi)

/-- Each component's measure is at most the total. -/
theorem le_total (μ : α → Nat) (c : Nat → α) {n i : Nat} (hi : i < n) :
    μ (c i) ≤ total μ c n :=
  Finset.single_le_sum (f := fun j => μ (c j)) (fun _ _ => Nat.zero_le _) (Finset.mem_range.mpr hi)

end LTS
