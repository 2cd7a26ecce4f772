import Mathlib.Logic.Function.Basic
import Mathlib.Tactic.Common

namespace WorkloadKit

-- An ideal lock, and who has taken it.
abbrev Lock (φ : Type*) :=
  Option φ

namespace Lock

variable {φ π : Type*}

-- Taking a lock blocks until it is free.
def acquire : Lock φ → φ → Option (Lock φ)
  | none,   f => some (some f)
  | some _, _ => none

theorem acquire_eq_some {l l' : Lock φ} {f : φ} : l.acquire f = some l' ↔ l = none ∧ some f = l' := by
  cases l <;> simp [acquire]

-- The lock is held by who is at a place of its program that meets a condition.
def HeldAt (l : Lock φ) (p : π → Bool) (pc : φ → π) : Prop :=
  ∀ f, l = some f ↔ p (pc f) = true

namespace HeldAt

variable {l : Lock φ} {p : π → Bool} {pc : φ → π} {f g : φ} {c : π}

theorem unique (h : l.HeldAt p pc) (hf : p (pc f) = true) (hg : p (pc g) = true) : f = g :=
  Option.some.inj <| ((h f).mpr hf).symm.trans <| (h g).mpr hg

theorem free (h : l.HeldAt p pc) (hf : ∀ f, p (pc f) = false) : l = none := by
  cases hl : l
  case none      => rfl
  case some f    => exact absurd ((h f).mp hl) (by simp [hf f])

variable [DecidableEq φ]

-- A holder moves on to another place of its program.
theorem update {l' : Lock φ} (hf : l' = some f ↔ p c = true)
    (h : ∀ g ≠ f, l' = some g ↔ p (pc g) = true) : l'.HeldAt p (Function.update pc f c) :=
  (Function.forall_update_iff pc fun g c => l' = some g ↔ p c = true).mpr ⟨hf, h⟩

theorem acquire (h : HeldAt none p pc) (hc : p c = true) : HeldAt (some f) p (Function.update pc f c) :=
  update (by simp [hc]) fun g hg => by simpa [Ne.symm hg] using h g

theorem release (h : l.HeldAt p pc) (hf : p (pc f) = true) (hc : p c = false) :
    HeldAt none p (Function.update pc f c) :=
  update (by simp [hc]) fun _ hg => ⟨nofun, fun hp => absurd (h.unique hp hf) hg⟩

-- A step that neither takes nor releases the lock.
theorem keep (h : l.HeldAt p pc) (hc : p c = p (pc f)) : l.HeldAt p (Function.update pc f c) :=
  update (hc ▸ h f) fun g _ => h g

end HeldAt
end Lock
end WorkloadKit
