import WorkloadKit.Cputemp.State

namespace WorkloadKit.Cputemp

variable {D : Type*} {scan : ℕ → List (Chip D)} {init repeatVal : ℤ} {n t : ℕ} {err : ℤ}

-- A run is to be successful if the chips can be scanned and the last scan finds one.
def Succeeds (init : ℤ) (scan : ℕ → List (Chip D)) (repeatVal : ℤ) : Prop :=
  init = 0 ∧ scan (repeatVal - 1).toNat ≠ []

end WorkloadKit.Cputemp
