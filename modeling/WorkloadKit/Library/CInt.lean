import Mathlib.Algebra.Group.Nat.Defs
import Mathlib.Algebra.Order.Ring.Int
import Mathlib.Data.Int.Notation
import Mathlib.Tactic.Common

namespace WorkloadKit.CInt

def INT_MAX : ℤ := 2 ^ 31 - 1
def INT_MIN : ℤ := -2 ^ 31

-- The values that an `int` can have.
def IsInt (x : ℤ) : Prop :=
  INT_MIN ≤ x ∧ x ≤ INT_MAX

instance : DecidablePred IsInt :=
  fun _ => inferInstanceAs <| Decidable (_ ∧ _)

-- The `int` that the result of an operation wraps around to.
def wrap (x : ℤ) : ℤ :=
  x.bmod (2 ^ 32)

-- The result of an operation, which is undefined if it is not an `int`.
def check (x : ℤ) : Option ℤ :=
  if IsInt x then some x else none

-- The result of an operation on a `long`.
def checkLong (x : ℤ) : Option ℤ :=
  if -2 ^ 63 ≤ x ∧ x ≤ 2 ^ 63 - 1 then some x else none

-- The shift `x << k`.
def shiftLeft (x : ℤ) (k : ℕ) : Option ℤ :=
  if 0 ≤ x ∧ k < 32 then check (x * 2 ^ k) else none

variable {x : ℤ} {k : ℕ}

theorem check_of_isInt (h : IsInt x) : check x = some x :=
  if_pos h

theorem check_of_not_isInt (h : ¬IsInt x) : check x = none :=
  if_neg h

theorem of_checkLong {y : ℤ} (h : checkLong x = some y) : x = y :=
  (Option.ite_none_right_eq_some.mp h).right |> Option.some.inj

theorem isInt_iff : IsInt x ↔ -2147483648 ≤ x ∧ x ≤ 2147483647 :=
  .rfl

theorem isInt_wrap (x : ℤ) : IsInt (wrap x) := by
  have hl := Int.le_bmod (x := x) (m := 2 ^ 32) (by decide)
  have hu := Int.bmod_lt (x := x) (m := 2 ^ 32) (by decide)
  rw [isInt_iff, wrap]
  omega

theorem wrap_of_isInt (h : IsInt x) : wrap x = x := by
  rw [isInt_iff] at h
  exact Int.bmod_eq_of_le (by omega) (by omega)

@[simp]
theorem wrap_zero : wrap 0 = 0 :=
  wrap_of_isInt ⟨by decide, by decide⟩

theorem wrap_wrap_add (x y : ℤ) : wrap (wrap x + y) = wrap (x + y) :=
  Int.bmod_add_bmod

theorem wrap_wrap_add_wrap (x y : ℤ) : wrap (wrap x + wrap y) = wrap (x + y) := by
  rw [wrap_wrap_add, Int.add_comm, wrap_wrap_add, Int.add_comm]

-- A sum that is added up in a loop.
theorem foldl_wrap {ι : Type*} (f : ι → ℤ) (is : List ι) (x : ℤ) :
    is.foldl (fun sum i => wrap (sum + wrap (f i))) (wrap x) = wrap (x + (is.map f).sum) := by
  induction is generalizing x
  case nil          => simp
  case cons i is hi =>
    rw [List.foldl_cons, wrap_wrap_add_wrap, hi, List.map_cons, List.sum_cons, Int.add_assoc]

end WorkloadKit.CInt
