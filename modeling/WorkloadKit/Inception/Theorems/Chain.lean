import Mathlib.Algebra.Order.Ring.Int
import Mathlib.Data.Int.ModEq
import WorkloadKit.Inception.State
import WorkloadKit.Utils.Theorems.Timespec

namespace WorkloadKit.Inception

open CInt Utils

variable {sys : Sys} {fuel depth n : ℕ} {mili time children : ℤ} {ps : List Process}

structure Sys.Succeeds (sys : Sys) : Prop where
  nanosleep : ∀ depth t, sys.nanosleep depth t = true
  fork      : ∀ depth, sys.fork depth = true

-- The time that a process sleeps, in nanoseconds.
def Process.slept (p : Process) : ℤ :=
  p.request.elim 0 Timespec.ns

-- The chain ends, with as many child processes as the usage text says and the right delays.
structure Chain (time children : ℤ) (ps : List Process) : Prop where
  forks : (ps.length : ℤ) = children + 1
  slept : ∀ k p, ps[k]? = some p → p.slept = time * 2 ^ k * 1000000
  valid : ∀ p ∈ ps, ∀ t ∈ p.request, 0 ≤ t.tvSec ∧ t.Normalized

theorem doRun_succ (hs : sys.Succeeds) : doRun sys (fuel + 1) depth mili children =
    ((if wrap (children - 1) = 0 then some [] else
      doRun sys fuel (depth + 1) (wrap <| mili * 2) (wrap <| children - 1)).map
        ({ request := sleepRequest mili } :: ·)) := by
  have hd : ¬doSleep (sys.nanosleep depth) mili < 0 := by
    rw [doSleep]
    split <;> simp [hs.nanosleep]
  rw [doRun, if_neg hd]
  simp only [spawnChild, hs.fork, if_true]

-- As the counter is decremented before it is tested, the last process is the one that makes it 0.
theorem length_modEq (hs : sys.Succeeds) (h : doRun sys fuel depth mili children = some ps) :
    (ps.length : ℤ) ≡ children [ZMOD 2 ^ 32] := by
  induction fuel generalizing depth mili children ps
  case zero => contradiction
  case succ fuel hi =>
    rw [doRun_succ hs] at h
    obtain ⟨qs, hq, rfl⟩ := Option.map_eq_some_iff.mp h
    have hw : wrap (children - 1) ≡ children - 1 [ZMOD 2 ^ 32] := Int.bmod_emod ..
    have hl : (qs.length : ℤ) ≡ children - 1 [ZMOD 2 ^ 32] := by
      split at hq
      case isTrue hz =>
        cases hq
        rw [hz] at hw
        exact hw
      case isFalse => exact (hi hq).trans hw
    rw [List.length_cons]
    push_cast
    simpa using hl.add_right 1

-- What the processes request if there is a positive number of them.
theorem doRun_eq (hs : sys.Succeeds) (hm : IsInt mili) (hn : IsInt (n + 1)) :
    doRun sys (n + 1) depth mili (n + 1) =
      some ((List.range (n + 1)).map fun k => { request := sleepRequest <| wrap <| mili * 2 ^ k }) := by
  rw [isInt_iff] at hn
  induction n generalizing depth mili
  case zero => simp [doRun_succ hs, wrap_of_isInt hm, show wrap 0 = 0 from rfl]
  case succ n hi =>
    have hc : wrap (((n + 1 : ℕ) : ℤ) + 1 - 1) = n + 1 := by
      rw [wrap_of_isInt <| by rw [isInt_iff]; push_cast; omega]
      push_cast
      omega
    have hw (k : ℕ) : wrap (wrap (mili * 2) * 2 ^ k) = wrap (mili * 2 ^ (k + 1)) := by
      rw [wrap, wrap, Int.bmod_mul_bmod, Int.mul_assoc, ←pow_succ', ←wrap]
    have hr : List.range (n + 1 + 1) = 0 :: (List.range (n + 1)).map Nat.succ := List.range_succ_eq_map
    rw [doRun_succ hs, hc, if_neg (by omega), hi (isInt_wrap _) (by omega), hr, List.map_cons, List.map_map]
    simp only [hw, Option.map_some, Int.pow_zero, Int.mul_one, wrap_of_isInt hm, Function.comp_def]

theorem ns_sleepRequest (mili : ℤ) : (sleepRequest mili).elim 0 Timespec.ns = mili * 1000000 := by
  rw [sleepRequest]
  split
  case isTrue h => simp [h]
  case isFalse =>
    have := Int.mul_tdiv_add_tmod mili 1000
    simp only [Option.elim_some, sleepTime, Timespec.ns]
    omega

theorem sleepTime_valid (h : 0 ≤ mili) : 0 ≤ (sleepTime mili).tvSec ∧ (sleepTime mili).Normalized := by
  have := Int.tmod_nonneg 1000 h
  have := Int.tmod_lt_of_pos mili (show (0 : ℤ) < 1000 by decide)
  refine ⟨Int.tdiv_nonneg h (by decide), ?_, ?_⟩
  · simp only [sleepTime]; omega
  · simp only [sleepTime]; omega

-- For a positive number of children there is one child too few, and the processes sleep as they should, as
-- long as the delays are values of an `int`.
theorem chain_pred (hs : sys.Succeeds) (ht : 0 ≤ time) (hn : IsInt (n + 1))
    (hm : time * 2 ^ n ≤ INT_MAX) :
    ∃ ps, doRun sys (n + 1) 0 time (n + 1) = some ps ∧ Chain time n ps := by
  have hmili (k : ℕ) (hk : k ≤ n) : 0 ≤ time * 2 ^ k ∧ wrap (time * 2 ^ k) = time * 2 ^ k := by
    have hp : (2 : ℤ) ^ k ≤ 2 ^ n := pow_le_pow_right₀ (by decide) hk
    have hl := Int.mul_le_mul_of_nonneg_left hp ht
    have hz : 0 ≤ time * 2 ^ k := Int.mul_nonneg ht <| Int.pow_nonneg (by decide)
    rw [INT_MAX] at hm
    exact ⟨hz, wrap_of_isInt <| by rw [isInt_iff]; omega⟩
  have htime : IsInt time := by
    have := isInt_wrap <| time * 2 ^ 0
    rwa [(hmili 0 n.zero_le).right, pow_zero, mul_one] at this
  refine ⟨_, doRun_eq hs htime hn, by simp, fun k p hp => ?_, fun p hp t ht => ?_⟩
  · obtain ⟨j, hj, rfl⟩ := Option.map_eq_some_iff.mp <| List.getElem?_map .. ▸ hp
    have ⟨hk, hj⟩ := List.getElem?_eq_some_iff.mp hj
    rw [List.length_range] at hk
    rw [List.getElem_range] at hj
    rw [Process.slept, ns_sleepRequest, ←hj, (hmili k <| by omega).right]
  · obtain ⟨k, hk, rfl⟩ := List.mem_map.mp hp
    have ⟨hz, hw⟩ := hmili k <| Nat.le_of_lt_succ <| List.mem_range.mp hk
    rw [hw, sleepRequest, Option.mem_def, Option.ite_none_left_eq_some] at ht
    cases ht.right
    exact sleepTime_valid hz

-- For no number of children does the program fork as many processes.
theorem not_chain (hs : sys.Succeeds) (time children : ℤ) :
    ¬∃ fuel ps, doRun sys fuel 0 time children = some ps ∧ Chain time children ps := by
  intro ⟨fuel, ps, he, hc⟩
  have hl := length_modEq hs he
  rw [hc.forks, Int.modEq_iff_dvd] at hl
  omega

theorem not_chain_three :
    let sys : Sys := { nanosleep := fun _ _ => true, fork := fun _ => true }
    ¬∃ fuel ps, doRun sys fuel 0 100 3 = some ps ∧ Chain 100 3 ps :=
  not_chain ⟨fun _ _ => rfl, fun _ => rfl⟩ 100 3

-- There is no child if one has been asked for.
theorem not_chain_one :
    ¬∀ sys : Sys, sys.Succeeds → ∀ time children, 0 ≤ time → 0 ≤ children → IsInt time → IsInt children →
      ∃ fuel ps, doRun sys fuel 0 time children = some ps ∧ Chain time children ps := by
  intro h
  let sys : Sys := { nanosleep := fun _ _ => true, fork := fun _ => true }
  have hs : sys.Succeeds := ⟨fun _ _ => rfl, fun _ => rfl⟩
  have ⟨fuel, ps, he, hc⟩ := h sys hs 5 1 (by decide) (by decide) (by decide) (by decide)
  have hp : ps.length = 1 := by
    cases fuel
    case zero => contradiction
    case succ =>
      rw [doRun_succ hs, if_pos (by decide)] at he
      cases he
      rfl
  have := hc.forks
  omega

end WorkloadKit.Inception
