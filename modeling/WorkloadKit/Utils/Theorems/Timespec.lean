import Mathlib.Tactic.Ring
import WorkloadKit.Utils.Timespec

namespace WorkloadKit.Utils

namespace Timespec

-- The number of nanoseconds that a timespec stands for.
def ns (t : Timespec) : ℤ :=
  t.tvSec * 1000000000 + t.tvNsec

structure Normalized (t : Timespec) : Prop where
  nonneg : 0 ≤ t.tvNsec
  lt     : t.tvNsec < 1000000000

theorem normalized_iff {t : Timespec} : t.Normalized ↔ 0 ≤ t.tvNsec ∧ t.tvNsec < 1000000000 :=
  ⟨fun ⟨hl, hu⟩ => ⟨hl, hu⟩, fun ⟨hl, hu⟩ => ⟨hl, hu⟩⟩

theorem Normalized.ext {t₁ t₂ : Timespec} (h₁ : t₁.Normalized) (h₂ : t₂.Normalized)
    (h : t₁.ns = t₂.ns) : t₁ = t₂ := by
  have := h₁.nonneg
  have := h₁.lt
  have := h₂.nonneg
  have := h₂.lt
  ext <;> simp only [ns] at h <;> omega

end Timespec

open Timespec

@[simp]
theorem timeSub_ns (x y : Timespec) : (timeSub x y).ns = x.ns - y.ns := by
  simp only [timeSub, ns]
  split <;> ring

@[simp]
theorem timeAdd_ns (x y : Timespec) : (timeAdd x y).ns = x.ns + y.ns := by
  simp only [timeAdd, ns]
  split <;> ring

theorem timespecToDoubleNs_eq {K : Type*} [Field K] (t : Timespec) :
    timespecToDoubleNs K t = t.ns := by
  simp [timespecToDoubleNs, ns]

end WorkloadKit.Utils
