import Mathlib.Order.Monotone.Basic
import Mathlib.Tactic.IntervalCases
import WorkloadKit.Pipette.Loops
import WorkloadKit.Pipette.Theorems.Invariant

namespace WorkloadKit.Pipette

variable {results : ℕ → ℤ} {size fuel k m : ℕ} {c c' : Child} {ret : ℤ}

-- The number of bytes that the first `k` calls have transferred.
def moved (results : ℕ → ℤ) : ℕ → ℕ
  | 0     => 0
  | k + 1 => moved results k + (results k).toNat

-- The call with the index `k` is made, as none of the ones before it has failed and some bytes are missing.
def Asked (results : ℕ → ℤ) (size k : ℕ) : Prop :=
  (∀ i < k, 0 ≤ results i) ∧ moved results k < size

-- The results of the calls that are made: each of them is an error or at most what has been asked for, and
-- after the end of the file there is nothing more.
structure Answers (results : ℕ → ℤ) (size : ℕ) : Prop where
  le_chunk : ∀ k, Asked results size k → results k ≤ chunk size (moved results k)
  eof      : ∀ k, Asked results size k → results k = 0 → results (k + 1) = 0

-- The state in which the loop makes the call with the index `k`, or ends before it.
structure At (results : ℕ → ℤ) (k : ℕ) (c : Child) : Prop where
  len     : c.len = moved results k
  touched : c.touched = List.range c.len
  nonneg  : ∀ i < k, 0 ≤ results i

theorem moved_mono : Monotone (moved results) :=
  monotone_nat_of_le_succ fun _ => Nat.le_add_right ..

theorem Asked.succ (h : Asked results size k) (hz : results k = 0) : Asked results size (k + 1) := by
  refine ⟨fun i hi => ?_, by simpa [moved, hz] using h.right⟩
  rcases Nat.lt_succ_iff_lt_or_eq.mp hi with hi | rfl
  · exact h.left i hi
  · exact hz.ge

namespace At

theorem startTransfer (c : Child) : At results 0 c.startTransfer where
  len     := rfl
  touched := rfl
  nonneg  := by simp

theorem asked (h : At results k c) (hl : c.len < size) : Asked results size k :=
  ⟨h.nonneg, h.len ▸ hl⟩

theorem advance (h : At results k c) (hr : ¬results k < 0) :
    At results (k + 1) (c.advance (results k).toNat) where
  len     := by rw [moved, ←h.len]; rfl
  touched := by
    have hr := List.range'_append_1 (s := 0) (m := c.len) (n := (results k).toNat)
    rw [Nat.zero_add] at hr
    simp only [Child.advance, h.touched, List.range_eq_range', hr]
  nonneg  := fun i hi => by
    rcases Nat.lt_succ_iff_lt_or_eq.mp hi with hi | rfl
    · exact h.nonneg i hi
    · exact not_lt.mp hr

-- The loop ends if each call fails or transfers something, as this leaves less to be transferred.
theorem exists_transferLoop (h : At results k c) (hn : ∀ k, Asked results size k → results k ≠ 0)
    (hf : size - c.len < fuel) : ∃ ret c', transferLoop results size fuel k c = some (ret, c') := by
  induction fuel generalizing k c
  case zero => contradiction
  case succ fuel hi =>
    rw [transferLoop]
    split
    case isFalse => exact ⟨_, _, rfl⟩
    case isTrue hl =>
      split
      case isTrue => exact ⟨_, _, rfl⟩
      case isFalse hr =>
        have := hn k <| h.asked hl
        refine hi (h.advance hr) ?_
        simp only [Child.advance]
        omega

-- A call that has reached the end of the file is repeated forever.
theorem transferLoop_eq_none (h : At results k c) (ha : Answers results size) (hk : k ≤ m)
    (hm : Asked results size m) (hz : results m = 0) : transferLoop results size fuel k c = none := by
  induction fuel generalizing k m c
  case zero => rfl
  case succ fuel hi =>
    have hl : c.len < size := h.len ▸ (moved_mono hk).trans_lt hm.right
    rcases hk.lt_or_eq with hk | rfl
    case inl =>
      have hr := not_lt.mpr <| hm.left k hk
      rw [transferLoop, if_pos hl, if_neg hr]
      exact hi (h.advance hr) hk hm hz
    case inr =>
      have hr := not_lt.mpr hz.ge
      rw [transferLoop, if_pos hl, if_neg hr]
      exact hi (h.advance hr) le_rfl (hm.succ hz) <| ha.eof k hm hz

-- If the loop returns the number of bytes, then all of them have been transferred, each one once.
theorem touched_of_transferLoop (h : At results k c)
    (he : transferLoop results size fuel k c = some (ret, c')) (hr : ret = size) :
    c'.touched = List.range size := by
  induction fuel generalizing k c
  case zero => contradiction
  case succ fuel hi =>
    rw [transferLoop] at he
    split at he
    case isFalse =>
      cases he
      rw [h.touched, Int.ofNat_inj.mp hr]
    case isTrue =>
      split at he
      case isTrue =>
        cases he
        omega
      case isFalse hn => exact hi (h.advance hn) he

end At

-- A transfer ends, and it only returns the number of bytes if they have all been transferred, if and only
-- if no call that it makes returns 0.
theorem transfer_ends_iff (c : Child) (ha : Answers results size) :
    (∃ fuel ret c', doTransfer results size fuel c = some (ret, c')) ∧
      (∀ fuel ret c', doTransfer results size fuel c = some (ret, c') → ret = size →
        c'.touched = List.range size) ↔
    ∀ k, Asked results size k → results k ≠ 0 := by
  have h : At results 0 c.startTransfer := .startTransfer c
  constructor
  case mp =>
    intro ⟨⟨fuel, ret, c', hs⟩, _⟩ k hk hz
    rw [doTransfer, h.transferLoop_eq_none ha k.zero_le hk hz] at hs
    contradiction
  case mpr =>
    intro hn
    have hl : size - c.startTransfer.len < size + 1 := Nat.lt_succ_of_le <| Nat.sub_le ..
    exact ⟨⟨_, h.exists_transferLoop hn hl⟩, fun _ _ _ hs hr => h.touched_of_transferLoop hs hr⟩

-- A short read, which the rest of the block follows.
def shortRead : ℕ → ℤ
  | 0 => 4000
  | 1 => 1000
  | _ => 0

theorem shortRead_lt_two (h : Asked shortRead 5000 k) : k < 2 := by
  by_contra hk
  have : moved shortRead 2 ≤ moved shortRead k := moved_mono <| not_lt.mp hk
  have : moved shortRead 2 = 5000 := rfl
  have := h.right
  omega

theorem transfer_ends_shortRead :
    ∃ fuel ret c', doTransfer shortRead 5000 fuel .init = some (ret, c') := by
  have hn : ∀ k, Asked shortRead 5000 k → shortRead k ≠ 0 := by
    intro k hk
    have hk := shortRead_lt_two hk
    interval_cases k <;> decide
  have ha : Answers shortRead 5000 := by
    refine ⟨fun k hk => ?_, fun k hk hz => absurd hz <| hn k hk⟩
    have hk := shortRead_lt_two hk
    interval_cases k <;> decide
  exact ((transfer_ends_iff .init ha).mpr hn).left

-- A consumer that has met the end of the file asks for the missing byte forever.
theorem not_transfer_ends :
    ¬∀ size results c, Answers results size →
      ∃ fuel ret c', doTransfer results size fuel c = some (ret, c') := by
  intro h
  have hz : Asked (fun _ => 0) 1 0 := ⟨by simp, by decide⟩
  have ha : Answers (fun _ => 0) 1 := ⟨fun _ _ => Int.natCast_nonneg _, fun _ _ _ => rfl⟩
  have ⟨fuel, ret, c', he⟩ := h 1 (fun _ => 0) .init ha
  rw [doTransfer, (At.startTransfer _).transferLoop_eq_none ha le_rfl hz rfl] at he
  contradiction

end WorkloadKit.Pipette
