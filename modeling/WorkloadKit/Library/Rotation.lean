import Mathlib.Algebra.Group.Units.Equiv
import Mathlib.Algebra.Ring.Fin
import Mathlib.Data.ZMod.Defs

namespace WorkloadKit

-- The positions after `i` rounds of `n` participants that take turns.
def rotation (n i : ℕ) [NeZero n] : Equiv.Perm (Fin n) :=
  Equiv.addRight (Fin.ofNat n i)

variable {n i : ℕ} [NeZero n]

theorem rotation_val (k : Fin n) : (rotation n i k : ℕ) = (k + i) % n := by
  simp [rotation, Fin.val_add]

-- A participant takes each of the positions once in `n` consecutive rounds.
theorem existsUnique_rotation_eq (c : ℕ) (k p : Fin n) : ∃! i, c ≤ i ∧ i < c + n ∧ rotation n i k = p := by
  have hr (r : Fin n) : rotation n (c + r) k = r + (k + Fin.ofNat n c) := by
    ext
    simp [rotation_val, Fin.val_add]
    congr 1
    omega
  have ⟨r, hp, hu⟩ := (Equiv.addRight (k + Fin.ofNat n c)).bijective.existsUnique p
  refine ⟨c + r, ⟨by omega, by omega, (hr r).trans hp⟩, fun i ⟨hc, hn, hi⟩ => ?_⟩
  have hl : i - c < n := by omega
  have hi' := hr ⟨i - c, hl⟩
  rw [Nat.add_sub_cancel' hc, hi] at hi'
  have := congrArg Fin.val <| hu ⟨i - c, hl⟩ hi'.symm
  simp only at this
  omega

end WorkloadKit
