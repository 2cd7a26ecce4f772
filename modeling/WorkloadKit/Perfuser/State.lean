import WorkloadKit.Library.CInt
import WorkloadKit.Library.Loop

namespace WorkloadKit.Perfuser

open CInt

-- The values that a `long` can have.
def IsLong (x : ℤ) : Prop :=
  -2 ^ 63 ≤ x ∧ x ≤ 2 ^ 63 - 1

instance : DecidablePred IsLong :=
  fun _ => inferInstanceAs <| Decidable (_ ∧ _)

-- The loop of `hog`, whose variable comes with the number of decrements. The latter is also the result,
-- although the function has none.
def hogLoop : Loop (ℤ × ℕ) ℕ
  | (x, n) => if x ≠ 0 then (check <| x - 1).map fun x => .inl (x, n + 1) else some <| .inr n

-- A call of `hog` returns after a number of decrements. The argument is truncated to an `int`.
def Hogs (iter : ℤ) (n : ℕ) : Prop :=
  hogLoop.Returns (wrap iter, 0) n

-- The field `iter_1ms`, given what `calibrate` returns.
def iter1ms (calibrated : BitVec 64) : ℤ :=
  calibrated.toInt

-- The field `iter_main` in `do_sampling_overhead`, whose value is undefined if the product is not a `long`.
def iterMain (iter1ms : ℤ) : Option ℤ :=
  let iter := iter1ms * 1000
  if IsLong iter then some iter else none

-- The work of a thread, which is the call of `hog` in `do_work`.
def DoesWork (calibrated : BitVec 64) (n : ℕ) : Prop :=
  ∃ iter, iterMain (iter1ms calibrated) = some iter ∧ Hogs iter n

end WorkloadKit.Perfuser
