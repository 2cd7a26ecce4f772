import Mathlib.Algebra.Order.Ring.Int
import WorkloadKit.Functrace.State

namespace WorkloadKit.Functrace

open CInt

variable {n i ret : ℤ} {k : ℕ}

-- The least number of the form `2 ^ k - 1` that is not less than `n`, or 0.
structure Rounded (n ret : ℤ) : Prop where
  nonpos : n ≤ 0 → ret = 0
  pos    : 0 < n → ∃ k : ℕ, ret = 2 ^ k - 1 ∧ n ≤ ret ∧ ∀ j : ℕ, n ≤ 2 ^ j - 1 → ret ≤ 2 ^ j - 1

-- The calls of `baz` that do not overflow.
theorem baz_of_le (h₀ : 0 ≤ i) (h : 3 * i ≤ INT_MAX) : baz i = some ((i * 3).tdiv 4) := by
  have hm : IsInt (i * 3) := ⟨by rw [INT_MIN]; omega, by omega⟩
  have hd : IsInt ((i * 3).tdiv 4) := by
    rw [Int.tdiv_eq_ediv_of_nonneg (by omega)]
    rw [isInt_iff] at hm ⊢
    omega
  simp only [baz, check_of_isInt hm, Option.bind_eq_bind, Option.bind_some, check_of_isInt hd]

theorem baz_of_lt (h : INT_MAX < 3 * i) : baz i = none := by
  have hm : ¬IsInt (i * 3) := fun hm => by
    have := hm.right
    omega
  simp only [baz, check_of_not_isInt hm, Option.bind_eq_bind, Option.bind_none]

theorem pow_le_of_le (h : k ≤ 29) : (2 : ℤ) ^ k ≤ 2 ^ 29 :=
  pow_le_pow_right₀ (by decide) h

theorem one_le_pow (k : ℕ) : (1 : ℤ) ≤ 2 ^ k :=
  one_le_pow₀ (by decide)

-- An iteration from one number of the form `2 ^ k - 1` goes on with the next one.
theorem barLoop_next (h : 2 ^ k - 1 < n) (hk : k < 29) :
    barLoop n (2 ^ k - 1) = some (.inl (2 ^ (k + 1) - 1)) := by
  have h₁ := one_le_pow k
  have h₂ := pow_le_of_le hk
  rw [pow_succ] at h₂ ⊢
  have hs : shiftLeft (2 ^ k - 1) 1 = some ((2 ^ k - 1) * 2) := by
    rw [shiftLeft, if_pos ⟨by omega, by decide⟩, pow_one, check_of_isInt]
    rw [isInt_iff]
    omega
  have hi : IsInt ((2 ^ k - 1) * 2 + 1) := by
    rw [isInt_iff]
    omega
  have hb := baz_of_le (i := (2 ^ k - 1) * 2) (by omega) (by rw [INT_MAX]; omega)
  simp only [barLoop, if_pos h, hs, check_of_isInt hi, hb, Option.bind_eq_bind, Option.bind_some]
  congr 2
  omega

-- The argument of `baz` is too large then.
theorem barLoop_overflow (h : 2 ^ 29 - 1 < n) : barLoop n (2 ^ 29 - 1) = none := by
  have hs : shiftLeft (2 ^ 29 - 1) 1 = some (2 ^ 30 - 2) := by decide
  have hi : IsInt (2 ^ 30 - 2 + 1) := by decide
  have hb := baz_of_lt (i := 2 ^ 30 - 2) <| by decide
  simp only [barLoop, if_pos h, hs, check_of_isInt hi, hb, Option.bind_eq_bind, Option.bind_some,
    Option.bind_none]

-- The numbers that the variable has at the beginning of an iteration.
def AtStart (n i : ℤ) : Prop :=
  ∃ k ≤ 29, i = 2 ^ k - 1 ∧ ∀ j < k, 2 ^ j - 1 < n

theorem rounded_of_le (hi : AtStart n i) (h : n ≤ i) : Rounded n i := by
  have ⟨k, _, hk, hn⟩ := hi
  subst hk
  constructor
  case nonpos =>
    intro h₀
    cases k
    case zero => rfl
    case succ =>
      have := hn 0 (Nat.succ_pos _)
      omega
  case pos =>
    refine fun _ => ⟨k, rfl, h, fun j hj => ?_⟩
    have hkj : k ≤ j := by
      by_contra hjk
      have := hn j (not_le.mp hjk)
      omega
    have : (2 : ℤ) ^ k ≤ 2 ^ j := pow_le_pow_right₀ (by decide) hkj
    omega

theorem bar_of_le (h : n ≤ 2 ^ 29 - 1) : ∃ ret, BarReturns n ret ∧ Rounded n ret := by
  refine Loop.exists_returns (I := AtStart n) (fun i => (n - i).toNat) ?_ ⟨0, by decide, rfl, nofun⟩
  intro i hi
  have ⟨k, hk, he, hn⟩ := hi
  by_cases hlt : i < n
  case neg => exact .inr ⟨i, if_neg hlt, rounded_of_le hi <| not_lt.mp hlt⟩
  case pos =>
    subst he
    have hk : k < 29 := by
      refine lt_of_le_of_ne hk fun he => ?_
      subst he
      omega
    have h₁ := one_le_pow k
    refine .inl ⟨_, barLoop_next hlt hk, ⟨k + 1, hk, rfl, fun j hj => ?_⟩, ?_⟩
    case refine_1 =>
      obtain hj | rfl := Nat.lt_succ_iff_lt_or_eq.mp hj
      · exact hn j hj
      · exact hlt
    case refine_2 =>
      rw [pow_succ]
      omega

theorem not_bar_of_lt (h : 2 ^ 29 - 1 < n) : ¬BarReturns n ret := by
  refine Loop.not_returns (I := fun i => ∃ k ≤ 29, i = 2 ^ k - 1) ?_ ⟨0, by decide, rfl⟩
  intro i ⟨k, hk, he⟩
  subst he
  obtain hk | rfl := Nat.lt_or_eq_of_le hk
  case inr => exact .inr <| barLoop_overflow h
  case inl =>
    have := pow_le_of_le hk.le
    exact .inl ⟨_, barLoop_next (by omega) hk, k + 1, hk, rfl⟩

-- A call returns what it should without any overflow if and only if its argument is less than `2 ^ 29`.
theorem bar_iff : (∃ ret, BarReturns n ret ∧ Rounded n ret) ↔ n < 2 ^ 29 := by
  constructor
  case mp =>
    intro ⟨ret, hb, _⟩
    by_contra hn
    exact not_bar_of_lt (by omega) hb
  case mpr => exact fun hn => bar_of_le <| by omega

theorem not_bar : ¬∀ n, IsInt n → ∃ ret, BarReturns n ret ∧ Rounded n ret := by
  intro h
  have ⟨ret, hb, _⟩ := h (2 ^ 29) (by decide)
  exact not_bar_of_lt (by decide) hb

end WorkloadKit.Functrace
