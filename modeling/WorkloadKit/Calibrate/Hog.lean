import WorkloadKit.Library.CInt
import WorkloadKit.Library.Loop

namespace WorkloadKit.Calibrate

-- The loop of `do_hog`, whose variable comes with the number of iterations that have been made, which is also
-- the result. Nothing changes `dummy`.
def doHogLoop : Loop (ℤ × ℕ) ℕ
  | (niters, n) =>
    let niters := niters - 1
    if niters ≠ 0 then some <| .inl (niters, n + 1) else some <| .inr (n + 1)

-- A call of `do_hog` returns after a number of iterations.
def DoHog (niters : ℤ) (n : ℕ) : Prop :=
  doHogLoop.Returns (if niters ≤ 0 then 1 else niters, 0) n

end WorkloadKit.Calibrate
