import WorkloadKit.Library.CInt
import WorkloadKit.Library.Loop

namespace WorkloadKit.Functrace

open CInt

def baz (n : ℤ) : Option ℤ := do
  let n ← check (n * 3)
  check (n.tdiv 4)

-- The loop of `bar`. The variable is shifted, passed to `baz`, and incremented before the call is made.
def barLoop (n : ℤ) : Loop ℤ ℤ
  | i =>
    if i < n then do
      let i ← shiftLeft i 1
      let next ← check (i + 1)
      let _ ← baz i
      some <| .inl next
    else
      some <| .inr i

-- A call of `bar` returns without any overflow.
def BarReturns (n ret : ℤ) : Prop :=
  (barLoop n).Returns 0 ret

end WorkloadKit.Functrace
