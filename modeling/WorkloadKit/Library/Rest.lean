import Mathlib.Algebra.BigOperators.Group.Finset.Piecewise
import Mathlib.Tactic.Common

namespace WorkloadKit

open scoped BigOperators

variable {ι α : Type*} [Fintype ι] [DecidableEq ι] {restOf : ι → α → ℕ} {rest : α → ℕ} {state : ι → α} {i : ι}
  {a : α}

-- What is left to be done by several threads if one of them goes on.
theorem sum_restOf_update :
    ∑ j, restOf j (Function.update state i a j) + restOf i (state i) = ∑ j, restOf j (state j) + restOf i a := by
  have hu : (fun j => restOf j (Function.update state i a j)) =
      Function.update (fun j => restOf j (state j)) i (restOf i a) :=
    funext fun j => Function.apply_update restOf state i a j
  have hs := Finset.add_sum_erase Finset.univ (fun j => restOf j (state j)) (Finset.mem_univ i)
  rw [hu, Finset.sum_update_of_mem (Finset.mem_univ i), Finset.sdiff_singleton_eq_erase]
  omega

theorem sum_restOf_update_lt (h : restOf i a < restOf i (state i)) :
    ∑ j, restOf j (Function.update state i a j) < ∑ j, restOf j (state j) := by
  have := @sum_restOf_update _ _ _ _ restOf state i a
  omega

-- The threads may all execute the same function.
theorem sum_rest_update :
    ∑ j, rest (Function.update state i a j) + rest (state i) = ∑ j, rest (state j) + rest a :=
  @sum_restOf_update _ _ _ _ (fun _ => rest) state i a

theorem sum_rest_update_lt (h : rest a < rest (state i)) :
    ∑ j, rest (Function.update state i a j) < ∑ j, rest (state j) :=
  @sum_restOf_update_lt _ _ _ _ (fun _ => rest) state i a h

end WorkloadKit
