import Mathlib.Algebra.BigOperators.Group.Finset.Basic
import Mathlib.Algebra.Order.BigOperators.Group.Finset

/-!
# Tally — sums over the processes of a system

A step of a system changes the contribution of one process; `sum_of_eq_off` is what that does to the
sum over all of them.
-/

namespace Xv6Schedulers.Lib
namespace Tally

open Finset

universe u

variable {ι : Type u} [Fintype ι] [DecidableEq ι] {f g : ι → Int}

theorem sum_of_eq_off (i : ι) (h : ∀ j, j ≠ i → g j = f j) : ∑ j, g j = ∑ j, f j - f i + g i := by
  have hrest : ∑ j ∈ univ.erase i, g j = ∑ j ∈ univ.erase i, f j :=
    sum_congr rfl fun j hj => h j (ne_of_mem_erase hj)
  have hg := add_sum_erase univ g (mem_univ i)
  have hf := add_sum_erase univ f (mem_univ i)
  omega

theorem nat_sum_of_eq_off {f g : ι → Nat} (i : ι) (h : ∀ j, j ≠ i → g j = f j) :
    ∑ j, g j + f i = ∑ j, f j + g i := by
  have hrest : ∑ j ∈ univ.erase i, g j = ∑ j ∈ univ.erase i, f j :=
    sum_congr rfl fun j hj => h j (ne_of_mem_erase hj)
  have hg := add_sum_erase univ g (mem_univ i)
  have hf := add_sum_erase univ f (mem_univ i)
  omega

end Tally

end Xv6Schedulers.Lib
