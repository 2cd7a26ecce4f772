import Mathlib.Algebra.Order.Ring.Int
import Mathlib.Tactic.Ring
import WorkloadKit.Pipette.Loops
import WorkloadKit.Pipette.Theorems.Invariant

namespace WorkloadKit.Pipette

open CInt

variable {p : Params} {signed : Bool} {i j n : ℕ} {a : ℤ} {c : Byte}

-- The value of a char of a block.
def charOf (signed : Bool) (i : ℕ) : ℤ :=
  CChar.promote signed <| BitVec.ofNat 8 i

-- The blocks whose numbers fit into a char.
def charLimit (signed : Bool) : ℕ :=
  if signed then 128 else 256

theorem charOf_true (i : ℕ) : charOf true i = (i : ℤ).bmod 256 := by
  rw [charOf, CChar.promote, if_pos rfl, BitVec.toInt_ofNat']

theorem charOf_false (i : ℕ) : charOf false i = i % 256 := by
  simp [charOf, CChar.promote]

theorem charOf_bounds (signed : Bool) (i : ℕ) : -i ≤ charOf signed i ∧ charOf signed i ≤ i := by
  cases signed
  case true  => rw [charOf_true, Int.bmod]; split <;> omega
  case false => rw [charOf_false]; omega

theorem charOf_eq_iff (signed : Bool) (i : ℕ) : charOf signed i = i ↔ i < charLimit signed := by
  cases signed
  case true =>
    rw [charOf_true, charLimit, if_pos rfl, Int.bmod]
    split <;> omega
  case false =>
    rw [charOf_false, charLimit, if_neg Bool.false_ne_true]
    omega

theorem foldl_replicate (signed : Bool) (c : Byte) (n : ℕ) (a : ℤ) :
    (List.replicate n c).foldl (fun sum c => wrap <| sum + CChar.promote signed c) (wrap a) =
      wrap (a + n * CChar.promote signed c) := by
  induction n generalizing a
  case zero => simp
  case succ n hi =>
    have hw : wrap (wrap a + CChar.promote signed c) = wrap (a + CChar.promote signed c) := by
      simp only [wrap, Int.bmod_add_bmod]
    rw [List.replicate_succ, List.foldl_cons, hw, hi]
    congr 1
    push_cast
    ring

theorem blockSum_block (p : Params) (signed : Bool) (i : ℕ) :
    blockSum signed (block p i) = wrap (p.size * charOf signed i) := by
  have h := foldl_replicate signed (BitVec.ofNat 8 i) p.size 0
  rw [Int.zero_add] at h
  exact h

-- The sums over a part of a block are not too large, whether or not they are the ones that are expected.
theorem isInt_mul (hj : j ≤ p.size) (hi : i < p.count) (hm : (p.size * p.count : ℤ) ≤ INT_MAX)
    (h : -i ≤ a ∧ a ≤ i) : IsInt (j * a) := by
  have hj₀ : (0 : ℤ) ≤ j := Int.natCast_nonneg _
  have hl : (j * i : ℤ) ≤ p.size * p.count := by
    exact_mod_cast Nat.mul_le_mul hj hi.le
  have h₁ := Int.mul_le_mul_of_nonneg_left h.left hj₀
  have h₂ := Int.mul_le_mul_of_nonneg_left h.right hj₀
  rw [Int.mul_neg] at h₁
  rw [INT_MAX] at hm
  rw [isInt_iff]
  omega

theorem blockSum_eq_iff (hs : 1 ≤ p.size) (hm : (p.size * p.count : ℤ) ≤ INT_MAX) (hi : i < p.count) :
    blockSum signed (block p i) = wrap (i * p.size) ↔ i < charLimit signed := by
  have hs : (p.size : ℤ) ≠ 0 := by omega
  rw [blockSum_block, wrap_of_isInt <| isInt_mul le_rfl hi hm <| charOf_bounds signed i, Int.mul_comm i,
    wrap_of_isInt <| isInt_mul le_rfl hi hm <| by omega, Int.mul_eq_mul_left_iff hs, charOf_eq_iff]

-- The consumer computes the sums that it expects of all blocks, if and only if there are not more blocks
-- than what their numbers can be stored for in a char.
theorem self_check_iff (p : Params) (signed : Bool) (hs : 1 ≤ p.size)
    (hm : (p.size * p.count : ℤ) ≤ INT_MAX) :
    (∀ i < p.count, blockSum signed (block p i) = wrap (i * p.size)) ↔ p.count ≤ charLimit signed := by
  constructor
  case mp =>
    intro h
    by_contra hc
    have hl := not_le.mp hc
    exact lt_irrefl _ <| (blockSum_eq_iff hs hm hl).mp <| h _ hl
  case mpr => exact fun hc i hi => (blockSum_eq_iff hs hm hi).mpr <| hi.trans_le hc

theorem self_check_four :
    let p : Params := { size := 4096, count := 4, capacity := 65536 }
    ∀ i < 4, blockSum true (block p i) = wrap (i * 4096) := by
  intro p
  exact (self_check_iff p true (by decide) (by decide)).mpr (by decide)

-- The char of the block 128 is -128 if it is signed.
theorem not_self_check :
    ¬∀ (p : Params) (signed : Bool), 1 ≤ p.size → (p.size * p.count : ℤ) ≤ INT_MAX →
      ∀ i < p.count, blockSum signed (block p i) = wrap (i * p.size) := by
  intro h
  have h := h { size := 1, count := 129, capacity := 65536 } true (by decide) (by decide) 128 (by decide)
  exact absurd h (by decide)

end WorkloadKit.Pipette
