import Mathlib.Algebra.Order.Group.Int
import WorkloadKit.Calibrate.Hog

namespace WorkloadKit.Calibrate

variable {niters : ℤ} {k m n : ℕ}

theorem doHogLoop_returns : doHogLoop.Returns ((k : ℤ) + 1, m) n ↔ m + k + 1 = n := by
  induction k generalizing m
  case zero =>
    rw [Loop.returns_of_exit (r := m + 1) rfl, Nat.add_zero]
  case succ k hi =>
    have hb : doHogLoop (((k + 1 : ℕ) : ℤ) + 1, m) = some (.inl ((k : ℤ) + 1, m + 1)) := by
      have hk : ((k + 1 : ℕ) : ℤ) + 1 - 1 = (k : ℤ) + 1 := by omega
      have hn : (k : ℤ) + 1 ≠ 0 := by omega
      simp only [doHogLoop, hk, if_pos hn]
    rw [Loop.returns_of_next hb, hi]
    omega

-- A call of `do_hog` makes as many iterations as its argument says, but at least one.
theorem doHog_iff : DoHog niters n ↔ max 1 niters.toNat = n := by
  have hk : (if niters ≤ 0 then 1 else niters) = ((niters.toNat - 1 : ℕ) : ℤ) + 1 := by
    split <;> omega
  rw [DoHog, hk, doHogLoop_returns]
  omega

end WorkloadKit.Calibrate
