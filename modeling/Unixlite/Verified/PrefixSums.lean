import Mathlib.Algebra.BigOperators.Group.List.Basic
import Mathlib.Algebra.BigOperators.Intervals

/-!
# Prefix sums

The list of the sums of the non-empty prefixes of a list.  An algorithm that
computes it from the end, one sum at a time, needs `prefixSums_concat`.
-/

namespace Unixlite.Verified

open List

variable {α : Type*} [AddCommMonoid α]

/-- The sum of each non-empty prefix. -/
def prefixSums (l : List α) : List α := (List.range l.length).map fun i => (l.take (i + 1)).sum

theorem prefixSums_concat (l : List α) (a : α) :
    prefixSums (l ++ [a]) = prefixSums l ++ [(l ++ [a]).sum] := by
  unfold prefixSums
  rw [length_append, length_singleton, range_succ, map_append]
  congr 1
  · refine map_congr_left fun i hi => ?_
    rw [take_append_of_le_length (by simpa using mem_range.mp hi)]
  · simp

theorem getElem?_prefixSums {l : List α} {i : Nat} (h : i < l.length) :
    (prefixSums l)[i]? = some (l.take (i + 1)).sum := by
  simp [prefixSums, h]

/-- Prefixes of a list that is given by a function of the index. -/
theorem sum_take_map_range (f : Nat → α) {i n : Nat} (h : i ≤ n) :
    (((List.range n).map f).take i).sum = ∑ j ∈ Finset.range i, f j := by
  rw [← map_take, take_range, Nat.min_eq_left h]
  induction i with
  | zero => rfl
  | succ i ih =>
      rw [range_succ, map_append, sum_append, Finset.sum_range_succ,
        ih (Nat.le_of_succ_le h)]
      simp

end Unixlite.Verified
