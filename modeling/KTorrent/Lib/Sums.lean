import Mathlib.Algebra.BigOperators.Group.Finset.Basic
import Mathlib.Algebra.Order.BigOperators.Group.Finset

/-!
# Sums that change in one place

* `sum_add_of_eq_off` — two sums of the same numbers but one.
-/

namespace KTorrent.Lib

variable {ι : Type*} [DecidableEq ι]

/-- The sums differ by what changed at `i`. Source: none: infrastructure. Kind: L -/
theorem sum_add_of_eq_off {s : Finset ι} {i : ι} (hi : i ∈ s) {f g : ι → ℕ}
    (h : ∀ j ∈ s, j ≠ i → g j = f j) : ∑ j ∈ s, g j + f i = ∑ j ∈ s, f j + g i := by
  have hrest : ∑ j ∈ s.erase i, g j = ∑ j ∈ s.erase i, f j := by
    apply Finset.sum_congr rfl
    intro j hj
    exact h j (Finset.mem_of_mem_erase hj) (Finset.ne_of_mem_erase hj)
  rw [← Finset.sum_erase_add _ g hi, ← Finset.sum_erase_add _ f hi, hrest]
  exact Nat.add_right_comm _ _ _

end KTorrent.Lib
