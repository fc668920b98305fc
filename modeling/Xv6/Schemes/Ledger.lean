import Mathlib.Algebra.BigOperators.Group.Finset.Piecewise
import Mathlib.Algebra.Order.BigOperators.Group.Finset

/-! @scheme ledger | name:A count kept for many holders | family:invariants

    A count that is the sum of what each of finitely many holders has. When one holder changes, the
    count has to change by the difference; and no holder, and no two of them, have more than it. -/

namespace Xv6.Schemes.Ledger

open Finset

variable {ι α : Type*} [Fintype ι]

/-- One holder changes. -/
theorem sum_update [DecidableEq ι] (f : ι → α) (i : ι) (x : α) (φ : α → ℕ) :
    ∑ j, φ (Function.update f i x j) + φ (f i) = ∑ j, φ (f j) + φ x := by
  have hrest : ∀ g : ι → α, φ (g i) + ∑ j ∈ univ.erase i, φ (g j) = ∑ j, φ (g j) := fun g =>
    Finset.add_sum_erase univ (fun j => φ (g j)) (mem_univ i)
  have hsame : ∑ j ∈ univ.erase i, φ (Function.update f i x j) = ∑ j ∈ univ.erase i, φ (f j) :=
    Finset.sum_congr rfl fun j hj => by rw [Function.update_of_ne (Finset.ne_of_mem_erase hj)]
  rw [← hrest, ← hrest f, hsame, Function.update_self]
  omega

theorem le_sum (f : ι → ℕ) (i : ι) : f i ≤ ∑ j, f j :=
  Finset.single_le_sum (fun _ _ => Nat.zero_le _) (mem_univ i)

theorem pair_le_sum [DecidableEq ι] (f : ι → ℕ) {i j : ι} (hne : i ≠ j) : f i + f j ≤ ∑ k, f k := by
  rw [← Finset.sum_pair hne]
  exact Finset.sum_le_sum_of_subset (Finset.subset_univ _)

end Xv6.Schemes.Ledger
