import Mathlib.Data.Nat.ModEq
import Mathlib.Data.Stream.Init

namespace WorkloadKit

theorem take_prefix_take {f : Stream' α} (h : m ≤ n) : f.take m <+: f.take n := by
  obtain ⟨k, rfl⟩ := Nat.exists_eq_add_of_le h
  induction k
  case zero     => exact List.prefix_refl _
  case succ k hi =>
    rw [Nat.add_succ, Stream'.take_succ']
    exact (hi <| Nat.le_add_right ..).trans (List.prefix_append ..)

namespace Ring

-- Positions which are less than one lap apart are in different slots of a ring.
theorem slot_ne {i j Q : ℕ} (h₁ : i < j) (h₂ : j < i + Q) : i % Q ≠ j % Q := by
  intro h
  have hd := (Nat.modEq_iff_dvd' h₁.le).mp h
  have := Nat.le_of_dvd (by omega) hd
  omega

-- The positions `lo`, ..., `hi - 1` of the stream `f` are stored in the slots of a ring of size `Q`.
def Holds (Q : ℕ) (data : ℕ → α) (f : Stream' α) (lo hi : ℕ) : Prop :=
  ∀ j, lo ≤ j → j < hi → data (j % Q) = f.get j

namespace Holds

variable {data : ℕ → α} {f : Stream' α}

theorem empty : Holds Q data f n n := by
  intro j h₁ h₂
  omega

theorem front (h : Holds Q data f lo hi) (hl : lo < hi) : data (lo % Q) = f.get lo :=
  h lo le_rfl hl

theorem drop (h : Holds Q data f lo hi) : Holds Q data f (lo + 1) hi :=
  fun j h₁ h₂ => h j (by omega) h₂

-- Writing the next position is safe as long as the ring is not full.
theorem push (h : Holds Q data f lo hi) (hq : hi < lo + Q) :
    Holds Q (Function.update data (hi % Q) (f.get hi)) f lo (hi + 1) := by
  intro j h₁ h₂
  by_cases hj : j = hi
  case pos => simp [hj]
  case neg =>
    have hne := slot_ne (i := j) (j := hi) (Q := Q) (by omega) (by omega)
    simp [Function.update_of_ne hne, h j h₁ (by omega)]

end Holds
end Ring
end WorkloadKit
