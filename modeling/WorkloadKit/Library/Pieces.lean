import Mathlib.Algebra.Order.BigOperators.Group.Finset
import Mathlib.Algebra.Order.Group.Nat

namespace WorkloadKit

open Finset

-- The length of the first `j` pieces of a list that comes in pieces.
def offset (ls : List (List α)) (j : ℕ) : ℕ :=
  (ls.take j).flatten.length

variable {α : Type*} {ls : List (List α)} {l stream : List α} {size : ℕ → ℕ} {i j m n : ℕ}

theorem offset_succ : offset ls (j + 1) = offset ls j + (ls.getD j []).length := by
  cases h : ls[j]? <;> simp [offset, List.take_add_one, List.getD_eq_getElem?_getD, h]

theorem offset_length : offset ls ls.length = ls.flatten.length := by
  rw [offset, List.take_length]

theorem offset_le_length : offset ls j ≤ ls.flatten.length := by
  have h := congrArg (·.flatten.length) <| List.take_append_drop j ls
  simp only [List.flatten_append, List.length_append] at h
  rw [offset]
  omega

theorem offset_eq_sum (h : ∀ i < j, (ls.getD i []).length = size i) :
    offset ls j = ∑ i ∈ range j, size i := by
  induction j
  case zero      => rfl
  case succ j hi =>
    rw [offset_succ, sum_range_succ, hi fun i hij => h i <| hij.trans j.lt_succ_self, h j j.lt_succ_self]

theorem offset_le_sum (h : ∀ i < j, (ls.getD i []).length ≤ size i) :
    offset ls j ≤ ∑ i ∈ range j, size i := by
  induction j
  case zero      => exact le_rfl
  case succ j hi =>
    rw [offset_succ, sum_range_succ]
    exact Nat.add_le_add (hi fun i hij => h i <| hij.trans j.lt_succ_self) <| h j j.lt_succ_self

-- What holds of the pieces so far and of a new one, holds of all of them.
theorem forall_getD_append {P : ℕ → List α → Prop} (h : ∀ j < ls.length, P j (ls.getD j []))
    (hl : P ls.length l) : ∀ j < (ls ++ [l]).length, P j ((ls ++ [l]).getD j []) := by
  intro j hj
  simp only [List.getD_eq_getElem?_getD] at h ⊢
  rcases Nat.lt_succ_iff_lt_or_eq.mp <| by simpa using hj with hj | rfl
  case inl => simpa [List.getElem?_append_left hj] using h j hj
  case inr => simpa using hl

-- A piece is determined by where it begins and how long it is.
theorem getD_eq_take_drop (h : ls.flatten ++ l = stream) :
    ls.getD j [] = (stream.drop (offset ls j)).take (ls.getD j []).length := by
  by_cases hj : j < ls.length
  case neg => simp [hj]
  case pos =>
    have hs : ls.take j ++ ls[j] :: ls.drop (j + 1) = ls := by simp
    have hd := congrArg (·.flatten ++ l) hs
    simp only [List.flatten_append, List.flatten_cons, List.append_assoc, h] at hd
    rw [List.getD_eq_getElem?_getD, List.getElem?_eq_getElem hj, Option.getD_some, offset, ←hd,
      List.drop_left, List.take_left]

theorem take_drop_append : (l.drop i).take m ++ (l.drop (i + m)).take n = (l.drop i).take (m + n) := by
  rw [List.take_add, List.drop_drop]

end WorkloadKit
