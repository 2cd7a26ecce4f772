import Mathlib.Data.Int.CardIntervalMod
import Mathlib.Data.Stream.Init

namespace WorkloadKit.TokenRing

-- The stations of a ring of size `n` in the order in which a token visits them.
def turns (n : ℕ) : Stream' ℕ :=
  fun j => j % n

-- The number of times that the first `m` turns are the one of station `r`.
def visits (n m r : ℕ) : ℕ :=
  ((turns n).take m).count r

variable {n m r : ℕ}

theorem visits_succ : visits n (m + 1) r = visits n m r + if m % n = r then 1 else 0 := by
  simp [visits, Stream'.take_succ', List.count_append, List.count_singleton, turns, Stream'.get]

theorem visits_eq_count (h : r < n) : visits n m r = m.count (· ≡ r [MOD n]) := by
  induction m
  case zero      => rfl
  case succ m hi => simp [visits_succ, Nat.count_succ, hi, Nat.ModEq, Nat.mod_eq_of_lt h]

theorem visits_eq (h : r < n) : visits n m r = m / n + if r < m % n then 1 else 0 := by
  rw [visits_eq_count h, Nat.count_modEq_card m (by omega) r, Nat.mod_eq_of_lt h]

theorem visits_anti (h : r₁ ≤ r₂) (h₂ : r₂ < n) : visits n m r₂ ≤ visits n m r₁ := by
  rw [visits_eq h₂, visits_eq (h.trans_lt h₂)]
  split <;> split <;> omega

theorem visits_le_visits_add_one (h₁ : r₁ < n) (h₂ : r₂ < n) :
    visits n m r₁ ≤ visits n m r₂ + 1 := by
  rw [visits_eq h₁, visits_eq h₂]
  split <;> split <;> omega

-- If no station is visited more than `k` times, but the next turn is the one of a station which has
-- been, then all of the stations have been, and the token is back at the first one.
theorem all_visited (hn : 0 < n) (hb : ∀ r < n, visits n m r ≤ k) (h : visits n m (m % n) = k) :
    m % n = 0 ∧ ∀ r < n, visits n m r = k := by
  have hl := Nat.mod_lt m hn
  have h₀ := hb 0 hn
  rw [visits_eq hl, if_neg (lt_irrefl _)] at h
  rw [visits_eq hn] at h₀
  have hz : m % n = 0 := by
    by_contra hc
    rw [if_pos (Nat.pos_of_ne_zero hc)] at h₀
    omega
  refine ⟨hz, fun r hr => ?_⟩
  rw [visits_eq hr, hz, if_neg (Nat.not_lt_zero r)]
  omega

end WorkloadKit.TokenRing
