import Mathlib.Algebra.Order.Ring.Int
import Mathlib.Data.List.Range
import WorkloadKit.Sigbench.State

namespace WorkloadKit.Sigbench

open CInt

variable {nrThread x : ℤ} {calls : List ℤ} {i j k : ℕ}

-- The calls are made for the powers of two up to a number, each once and in increasing order.
structure Powers (nrThread : ℤ) (calls : List ℤ) : Prop where
  mem    : ∀ x, x ∈ calls ↔ x ≤ nrThread ∧ ∃ k : ℕ, x = 2 ^ k
  sorted : calls.Pairwise (· < ·)

theorem shiftLeft_one (h : i ≤ 30) : shiftLeft 1 i = some (2 ^ i) := by
  have hp : (2 : ℤ) ^ i ≤ 2 ^ 30 := pow_le_pow_right₀ (by decide) h
  have h₁ : (1 : ℤ) ≤ 2 ^ i := one_le_pow₀ (by decide)
  have hi : IsInt (2 ^ i) := by
    rw [isInt_iff]
    omega
  rw [shiftLeft, if_pos ⟨by decide, by omega⟩, one_mul, check_of_isInt hi]

-- The shift by 31 is the first one that is undefined.
theorem shiftLeft_overflow : shiftLeft 1 31 = none := by
  decide

-- The calls that have been made at the beginning of an iteration.
def powers (i : ℕ) : List ℤ :=
  (List.range i).map (2 ^ ·)

theorem powers_succ (i : ℕ) : powers (i + 1) = powers i ++ [2 ^ i] := by
  simp [powers, List.range_succ]

theorem powers_sorted (i : ℕ) : (powers i).Pairwise (· < ·) := by
  rw [powers, List.pairwise_map]
  exact List.pairwise_lt_range.imp fun h => pow_lt_pow_right₀ (by decide) h

-- The loop is left where the powers begin to exceed the number.
theorem powers_of_lt (h : nrThread < 2 ^ i) (hl : ∀ j < i, 2 ^ j ≤ nrThread) : Powers nrThread (powers i) where
  sorted := powers_sorted i
  mem x  := by
    simp only [powers, List.mem_map, List.mem_range]
    constructor
    case mp  => exact fun ⟨j, hj, hx⟩ => ⟨hx ▸ hl j hj, j, hx.symm⟩
    case mpr =>
      intro ⟨hn, j, hx⟩
      refine ⟨j, ?_, hx.symm⟩
      by_contra hj
      have : (2 : ℤ) ^ i ≤ 2 ^ j := pow_le_pow_right₀ (by decide) (not_lt.mp hj)
      omega

-- What holds at the beginning of an iteration, as long as no shift is undefined.
def AtStart (nrThread : ℤ) (s : ℕ × List ℤ) : Prop :=
  s.fst ≤ 30 ∧ s.snd = powers s.fst ∧ ∀ j < s.fst, 2 ^ j ≤ nrThread

theorem sweeps_of_lt (h : nrThread < 2 ^ 30) : ∃ calls, Sweeps nrThread calls ∧ Powers nrThread calls := by
  refine Loop.exists_returns (I := AtStart nrThread) (fun s => 30 - s.fst) ?_ ⟨by decide, rfl, nofun⟩
  rintro ⟨i, calls⟩ ⟨hi, hc, hl⟩
  simp only at hi hc hl
  subst hc
  by_cases hn : 2 ^ i ≤ nrThread
  case neg =>
    refine .inr ⟨powers i, ?_, powers_of_lt (not_le.mp hn) hl⟩
    simp only [sweepLoop, shiftLeft_one hi, Option.map_some, if_neg hn]
  case pos =>
    have hi : i < 30 := by
      refine lt_of_le_of_ne hi fun he => ?_
      subst he
      omega
    have hr := Nat.sub_lt_sub_left hi <| Nat.lt_succ_self i
    refine .inl ⟨(i + 1, powers (i + 1)), ?_, ⟨hi, rfl, fun j hj => ?_⟩, hr⟩
    case refine_1 => simp only [sweepLoop, shiftLeft_one hi.le, Option.map_some, if_pos hn, powers_succ]
    case refine_2 =>
      obtain hj | rfl := Nat.lt_succ_iff_lt_or_eq.mp hj
      · exact hl j hj
      · exact hn

theorem not_sweeps_of_le (h : 2 ^ 30 ≤ nrThread) : ¬Sweeps nrThread calls := by
  refine Loop.not_returns (I := fun s : ℕ × List ℤ => s.fst ≤ 31) ?_ (by decide)
  rintro ⟨i, calls⟩ hi
  simp only at hi
  obtain hi | rfl := Nat.lt_or_eq_of_le hi
  case inr => exact .inr <| by rw [sweepLoop, shiftLeft_overflow, Option.map_none]
  case inl =>
    have hp : (2 : ℤ) ^ i ≤ 2 ^ 30 := pow_le_pow_right₀ (by decide) (Nat.le_of_lt_succ hi)
    refine .inl ⟨(i + 1, calls ++ [2 ^ i]), ?_, hi⟩
    simp only [sweepLoop, shiftLeft_one (Nat.le_of_lt_succ hi), Option.map_some, if_pos (hp.trans h)]

-- The sweep makes the calls that it should and terminates, if and only if the number is less than `2 ^ 30`.
theorem sweep_iff : (∃ calls, Sweeps nrThread calls ∧ Powers nrThread calls) ↔ nrThread < 2 ^ 30 := by
  constructor
  case mp =>
    intro ⟨calls, hs, _⟩
    by_contra hn
    exact not_sweeps_of_le (not_lt.mp hn) hs
  case mpr => exact sweeps_of_lt

theorem not_sweep : ¬∀ nrThread, IsInt nrThread → ∃ calls, Sweeps nrThread calls ∧ Powers nrThread calls := by
  intro h
  have ⟨calls, hs, _⟩ := h (2 ^ 30) (by decide)
  exact not_sweeps_of_le le_rfl hs

end WorkloadKit.Sigbench
