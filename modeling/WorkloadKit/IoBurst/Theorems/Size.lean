import Mathlib.Algebra.Order.BigOperators.Group.Finset
import Mathlib.Algebra.Order.Ring.Int
import WorkloadKit.IoBurst.State

namespace WorkloadKit.IoBurst

open Finset

variable {write : ℕ → ℤ} {buf file : List UInt8} {size count : ℤ} {calloc : Bool} {i k n : ℕ}

-- A call of `write` fails, or it accepts a part of the buffer which is not empty.
def Accepts (size : ℤ) (write : ℕ → ℤ) : Prop :=
  ∀ i, write i < 0 ∨ 1 ≤ write i ∧ write i ≤ size

-- The loop ends normally if and only if no call fails.
theorem ioLoop_fst : (ioLoop write buf i file k).fst = .returned 0 ↔ ∀ j < k, 0 ≤ write (i + j) := by
  induction k generalizing i file
  case zero => simp [ioLoop]
  case succ k hi =>
    rw [ioLoop, Nat.forall_lt_succ_left]
    split
    case isTrue hw =>
      refine iff_of_false nofun fun h => ?_
      exact absurd h.left (not_le.mpr hw)
    case isFalse hw =>
      have hs j : i + 1 + j = i + (j + 1) := by omega
      have hw : 0 ≤ write (i + 0) := not_lt.mp hw
      rw [hi, and_iff_right hw]
      simp only [hs]

-- What the calls have accepted is in the file.
theorem ioLoop_snd (hn : ∀ j < k, 0 ≤ write (i + j)) (hb : ∀ j < k, write (i + j) ≤ buf.length) :
    ((ioLoop write buf i file k).snd.length : ℤ) = file.length + ∑ j ∈ range k, write (i + j) := by
  induction k generalizing i file
  case zero => simp [ioLoop]
  case succ k hi =>
    have ⟨hw, hn⟩ := Nat.forall_lt_succ_left.mp hn
    have ⟨hl, hb⟩ := Nat.forall_lt_succ_left.mp hb
    simp only [Nat.add_zero] at hw hl
    have hs j : i + 1 + j = i + (j + 1) := by omega
    rw [ioLoop, if_neg (not_lt.mpr hw), hi (fun j hj => hs j ▸ hn j hj) (fun j hj => hs j ▸ hb j hj),
      sum_range_succ', List.length_append, List.length_take, Nat.min_eq_left (by omega)]
    simp only [hs, Nat.add_zero]
    omega

-- The sum of numbers that are not above a bound is as large as possible only if all of them are.
theorem sum_eq_iff (h : ∀ j < k, write j ≤ size) :
    ∑ j ∈ range k, write j = size * k ↔ ∀ j < k, write j = size := by
  have hs : size * k = ∑ j ∈ range k, size := by simp [Int.mul_comm]
  rw [hs, sum_eq_sum_iff_of_le fun j hj => h j <| mem_range.mp hj]
  simp only [mem_range]

-- If all calls succeed, then the file is complete if and only if each of them has accepted the whole buffer.
theorem ioLoop_complete_iff (hs : 1 ≤ size) (hw : Accepts size write) (hn : ∀ j < k, 0 ≤ write j) :
    ((ioLoop write (List.replicate size.toNat 0) 0 [] k).snd.length : ℤ) = size * k ↔
      ∀ j < k, write j = size := by
  have hle j (hj : j < k) : write j ≤ size := ((hw j).resolve_left <| not_lt.mpr <| hn j hj).right
  have hl : ((List.replicate size.toNat (0 : UInt8)).length : ℤ) = size := by
    rw [List.length_replicate, Int.toNat_of_nonneg (by omega)]
  have hi : ((ioLoop write (List.replicate size.toNat 0) 0 [] k).snd.length : ℤ) = ∑ j ∈ range k, write j := by
    rw [ioLoop_snd]
    · simp
    · simpa using hn
    · rw [hl]
      simpa using hle
  rw [hi, sum_eq_iff hle]

-- The file is complete whenever 0 is returned, if and only if the call has failed, or each call of `write` has
-- accepted the whole buffer.
theorem doIo_complete_iff (hs : 1 ≤ size) (hc : 0 ≤ count) (hw : Accepts size write) :
    ((doIo calloc write size count).fst = .returned 0 →
      ((doIo calloc write size count).snd.length : ℤ) = size * count) ↔
    calloc = false ∨ (∃ i : ℕ, i < count ∧ write i < 0) ∨ ∀ i : ℕ, i < count → write i = size := by
  obtain ⟨k, rfl⟩ := Int.eq_ofNat_of_zero_le hc
  simp only [Int.ofNat_lt]
  cases calloc
  case false => exact iff_of_true nofun <| .inl rfl
  case true =>
    have hr : (doIo true write size k).fst = .returned 0 ↔ ∀ j < k, 0 ≤ write j := by
      rw [doIo, if_pos rfl, Int.toNat_natCast, ioLoop_fst]
      simp only [Nat.zero_add]
    by_cases hn : ∀ j < k, 0 ≤ write j
    case pos =>
      have hf : ¬∃ i < k, write i < 0 := fun ⟨i, hi, hw⟩ => not_lt.mpr (hn i hi) hw
      rw [forall_prop_of_true (hr.mpr hn), or_iff_right nofun, or_iff_right hf]
      exact ioLoop_complete_iff hs hw hn
    case neg =>
      refine iff_of_true (fun h => absurd (hr.mp h) hn) <| .inr <| .inl ?_
      simpa using hn

-- Three blocks of the default size.
theorem doIo_complete_three :
    (doIo true (fun _ => 4096) 4096 3).fst = .returned 0 ∧
    ((doIo true (fun _ => 4096) 4096 3).snd.length : ℤ) = 4096 * 3 := by
  have hr : (doIo true (fun _ => 4096) 4096 3).fst = .returned 0 := by
    rw [doIo, if_pos rfl, ioLoop_fst]
    exact fun _ _ => by decide
  have hw : ∀ i : ℕ, i < (3 : ℤ) → (4096 : ℤ) = 4096 := fun _ _ => rfl
  exact ⟨hr, (doIo_complete_iff (by decide) (by decide) fun _ => .inr <| by decide).mpr (.inr <| .inr hw) hr⟩

-- The disk is full after 4 of 10 bytes.
theorem not_doIo_complete :
    ¬∀ calloc write size count, 1 ≤ size → 0 ≤ count → Accepts size write →
      (doIo calloc write size count).fst = .returned 0 →
      ((doIo calloc write size count).snd.length : ℤ) = size * count := by
  intro h
  have ha : Accepts 10 fun _ => 4 := fun _ => .inr <| show (1 : ℤ) ≤ 4 ∧ (4 : ℤ) ≤ 10 by decide
  have hl := h true (fun _ => 4) 10 1 (by decide) (by decide) ha (by decide)
  exact absurd hl (by decide)

end WorkloadKit.IoBurst
