import WorkloadKit.Library.CInt
import WorkloadKit.Library.Loop

namespace WorkloadKit.Sigbench

open CInt

-- The loop of `main` for `--foreach`, whose variable comes with the arguments of the calls of `sigbench_once`
-- that have been made. These are also the result.
def sweepLoop (nrThread : ℤ) : Loop (ℕ × List ℤ) (List ℤ)
  | (i, calls) =>
    (shiftLeft 1 i).map fun nr => if nr ≤ nrThread then .inl (i + 1, calls ++ [nr]) else .inr calls

-- The loop terminates after some calls.
def Sweeps (nrThread : ℤ) (calls : List ℤ) : Prop :=
  (sweepLoop nrThread).Returns (0, []) calls

end WorkloadKit.Sigbench
