import WorkloadKit.Perfuser.State

namespace WorkloadKit.Perfuser

open CInt

variable {x iter : ℤ} {n : ℕ} {calibrated : BitVec 64}

-- If the loop is left, the variable has been decremented as often as its initial value says.
theorem eq_of_returns (h : hogLoop.Returns (x, 0) n) : x = n := by
  refine h.invariant (I := fun s : ℤ × ℕ => s.fst + s.snd = x) (Q := fun n : ℕ => x = n) (by simp) ?next ?exit
  case next =>
    intro ⟨y, m⟩ ⟨y', m'⟩ hi hb
    simp only [hogLoop] at hb
    split at hb
    case isFalse => cases hb
    case isTrue =>
      have ⟨z, hz, hb⟩ := Option.map_eq_some_iff.mp hb
      rw [check] at hz
      split at hz
      case isFalse => cases hz
      case isTrue =>
        cases hz
        cases hb
        rw [← hi]
        push_cast
        omega
  case exit =>
    intro ⟨y, m⟩ r hi hb
    simp only [hogLoop] at hb
    split at hb
    case isTrue =>
      have ⟨_, _, hb⟩ := Option.map_eq_some_iff.mp hb
      cases hb
    case isFalse hy =>
      cases hb
      rw [← hi, not_not.mp hy, zero_add]

-- An `int` that is not negative reaches zero.
theorem returns_of_nonneg (h : IsInt x) (h₀ : 0 ≤ x) : hogLoop.Returns (x, 0) x.toNat := by
  have step (s : ℤ × ℕ) (hi : IsInt s.fst ∧ 0 ≤ s.fst) :
      (∃ s', hogLoop s = some (.inl s') ∧ (IsInt s'.fst ∧ 0 ≤ s'.fst) ∧ s'.fst.toNat < s.fst.toNat) ∨
      ∃ n, hogLoop s = some (.inr n) ∧ True := by
    obtain ⟨y, m⟩ := s
    obtain ⟨hy, h₀⟩ := hi
    by_cases hz : y = 0
    case pos => exact .inr ⟨m, by simp [hogLoop, hz], trivial⟩
    case neg =>
      have hy : IsInt (y - 1) := by
        rw [isInt_iff] at hy ⊢
        omega
      refine .inl ⟨(y - 1, m + 1), by simp [hogLoop, hz, check_of_isInt hy], ⟨hy, by omega⟩, ?_⟩
      show (y - 1).toNat < y.toNat
      omega
  have hi : IsInt (x, 0).fst ∧ 0 ≤ (x, 0).fst := ⟨h, h₀⟩
  have ⟨r, hr, _⟩ := Loop.exists_returns (fun s : ℤ × ℕ => s.fst.toNat) step hi
  have hx : x.toNat = r := by
    rw [eq_of_returns hr]
    rfl
  exact hx ▸ hr

-- A call of `hog` makes as many decrements as its argument says, if and only if that is an `int`.
theorem hogs_iff (h : 0 ≤ iter) : Hogs iter iter.toNat ↔ iter ≤ INT_MAX := by
  constructor
  case mp =>
    intro hh
    have := eq_of_returns hh
    rw [Int.toNat_of_nonneg h] at this
    exact this ▸ (isInt_wrap iter).right
  case mpr =>
    intro hm
    have hi : IsInt iter := ⟨by rw [INT_MIN]; omega, hm⟩
    rw [Hogs, wrap_of_isInt hi]
    exact returns_of_nonneg hi h

-- The truncation to a `long` and the product do not matter if the product is an `int`.
theorem doesWork_iff :
    DoesWork calibrated (1000 * calibrated.toNat) ↔ (1000 * calibrated.toNat : ℤ) ≤ INT_MAX := by
  constructor
  case mp =>
    intro ⟨iter, _, hh⟩
    have hw := (isInt_wrap iter).right
    rw [eq_of_returns hh] at hw
    rw [INT_MAX] at hw ⊢
    omega
  case mpr =>
    intro hm
    have hl : 2 * calibrated.toNat < 2 ^ 64 := by
      rw [INT_MAX] at hm
      omega
    have hi : iter1ms calibrated = calibrated.toNat := BitVec.toInt_eq_toNat_of_lt hl
    refine ⟨1000 * calibrated.toNat, ?_, ?_⟩
    case refine_1 =>
      rw [iterMain, hi, mul_comm]
      refine if_pos ⟨?_, ?_⟩
      all_goals
        rw [INT_MAX] at hm
        omega
    case refine_2 => exact (hogs_iff <| by omega).mpr hm

-- Both numbers of decrements are as they should be if and only if they fit an `int`.
theorem work_iff (h : 0 ≤ iter) (calibrated : BitVec 64) : (Hogs iter iter.toNat ↔ iter ≤ INT_MAX) ∧
    (DoesWork calibrated (1000 * calibrated.toNat) ↔ (1000 * calibrated.toNat : ℤ) ≤ INT_MAX) :=
  ⟨hogs_iff h, doesWork_iff⟩

-- A machine that makes half a million decrements in a millisecond.
theorem work_half_million : Hogs 5 5 ∧ DoesWork 500000 500000000 :=
  have ⟨hh, hw⟩ := work_iff (by decide : (0 : ℤ) ≤ 5) 500000
  ⟨hh.mpr <| by decide, hw.mpr <| by decide⟩

-- A faster machine, which makes three million decrements in a millisecond.
theorem not_work : ¬∀ (iter : ℤ) (calibrated : BitVec 64), 0 ≤ iter → IsLong iter →
    Hogs iter iter.toNat ∧ DoesWork calibrated (1000 * calibrated.toNat) := by
  intro h
  have ⟨_, hw⟩ := h 0 3000000 (by decide) (by decide)
  exact absurd (doesWork_iff.mp hw) (by decide)

end WorkloadKit.Perfuser
