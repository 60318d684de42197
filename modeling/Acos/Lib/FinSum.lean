import Mathlib.Algebra.BigOperators.Group.Finset.Basic

/-! Sums over a finite set of which one term changes. -/
namespace Acos.FinSum

variable {ι M : Type*} [DecidableEq ι] [AddCommMonoid M]

theorem sum_change {s : Finset ι} {f g : ι → M} {i : ι} (hi : i ∈ s)
    (h : ∀ j, j ≠ i → g j = f j) : ∑ j ∈ s, g j + f i = ∑ j ∈ s, f j + g i := by
  have hrest : ∑ j ∈ s.erase i, g j = ∑ j ∈ s.erase i, f j :=
    Finset.sum_congr rfl fun j hj => h j (Finset.ne_of_mem_erase hj)
  rw [← Finset.sum_erase_add _ _ hi, ← Finset.sum_erase_add _ f hi, hrest, add_right_comm]

end Acos.FinSum
