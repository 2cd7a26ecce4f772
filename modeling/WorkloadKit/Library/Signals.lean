import Mathlib.Logic.Function.Basic
import Mathlib.Tactic.Common

namespace WorkloadKit

-- What is done when a signal is delivered, where the handlers are of type `φ`.
inductive Disposition (φ : Type*)
  | default | ignore | handler (f : φ)
  deriving DecidableEq

-- The signals of a process that has one thread. Each instance of a signal that is queued is kept until it is
-- delivered, but of the other signals at most one instance is pending.
structure Signals (σ φ : Type*) (queued : σ → Bool) where
  disposition : σ → Disposition φ
  blocked     : σ → Bool
  pending     : σ → ℕ
  pending_le  : ∀ sig, queued sig = false → pending sig ≤ 1

namespace Signals

variable {σ φ : Type*} [DecidableEq σ] [DecidableEq φ] {queued : σ → Bool} (s : Signals σ φ queued) (sig : σ)

-- No handlers are installed, and no signals are blocked or pending.
def init : Signals σ φ queued where
  disposition _  := .default
  blocked _      := false
  pending _      := 0
  pending_le _ _ := Nat.zero_le _

-- A signal that is ignored is dropped, but not while it is blocked.
def send : Signals σ φ queued :=
  if s.disposition sig = .ignore ∧ s.blocked sig = false then
    s
  else
    { s with
      pending    := Function.update s.pending sig <| if queued sig then s.pending sig + 1 else 1
      pending_le := fun t ht => by
        by_cases hs : t = sig
        case pos => subst hs; simp [ht]
        case neg => simpa [hs] using s.pending_le t ht }

-- The call of `signal`, which drops the instances that are pending if the signal is ignored from now on.
def signal (d : Disposition φ) : Signals σ φ queued where
  disposition := Function.update s.disposition sig d
  blocked     := s.blocked
  pending     := if d = .ignore then Function.update s.pending sig 0 else s.pending
  pending_le t ht := by
    split
    case isTrue =>
      by_cases hs : t = sig
      case pos => simp [hs]
      case neg => simpa [hs] using s.pending_le t ht
    case isFalse => exact s.pending_le t ht

def setBlocked (blocked : σ → Bool) : Signals σ φ queued :=
  { s with blocked }

def Deliverable : Prop :=
  s.blocked sig = false ∧ 0 < s.pending sig

instance : Decidable (s.Deliverable sig) :=
  inferInstanceAs <| Decidable (_ ∧ _)

-- An instance is not pending any more when it is delivered.
def take : Signals σ φ queued :=
  { s with
    pending    := Function.update s.pending sig (s.pending sig - 1)
    pending_le := fun t ht => by
      have := s.pending_le t ht
      by_cases hs : t = sig
      case pos => subst hs; simp only [Function.update_self]; omega
      case neg => simpa [hs] using this }

variable {s sig} {t : σ} {d : Disposition φ}

theorem pending_send_of_ne (h : t ≠ sig) : (s.send sig).pending t = s.pending t := by
  rw [send]
  split
  case isTrue  => rfl
  case isFalse => exact Function.update_of_ne h ..

theorem pending_send_le : (s.send sig).pending sig ≤ s.pending sig + 1 := by
  rw [send]
  split
  case isTrue  => exact Nat.le_succ _
  case isFalse => simp only [Function.update_self]; split <;> omega

theorem le_pending_send : s.pending sig ≤ (s.send sig).pending sig := by
  have := s.pending_le sig
  rw [send]
  split
  case isTrue  => exact Nat.le_refl _
  case isFalse =>
    simp only [Function.update_self]
    split
    case isTrue      => exact Nat.le_succ _
    case isFalse hq  => exact this <| Bool.of_not_eq_true hq

-- The signal is pending afterwards unless it is dropped.
theorem pending_send_pos (h : s.disposition sig = .ignore → s.blocked sig = true) :
    0 < (s.send sig).pending sig := by
  rw [send, if_neg fun hn => by simp [h hn.left] at hn]
  simp only [Function.update_self]
  split <;> omega

@[simp]
theorem send_disposition : (s.send sig).disposition = s.disposition := by
  rw [send]
  split <;> rfl

@[simp]
theorem send_blocked : (s.send sig).blocked = s.blocked := by
  rw [send]
  split <;> rfl

theorem pending_signal_le : (s.signal sig d).pending t ≤ s.pending t := by
  simp only [signal]
  split
  case isTrue =>
    by_cases hs : t = sig
    case pos => simp [hs]
    case neg => simp [hs]
  case isFalse => exact Nat.le_refl _

end Signals
end WorkloadKit
