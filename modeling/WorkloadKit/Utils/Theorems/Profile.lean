import Mathlib.Analysis.Real.Sqrt
import WorkloadKit.Utils.Profile
import WorkloadKit.Utils.Theorems.Timespec

namespace WorkloadKit.Utils

open Timespec
open scoped Finset

namespace Profile

variable {K : Type*} [Field K] {data : ℕ → Timespec} {n : ℕ}

-- The interval between two consecutive timestamps.
def interval (data : ℕ → Timespec) (i : ℕ) : ℤ :=
  (data (i + 1)).ns - (data i).ns

theorem delta_ns : (delta data i).ns = interval data i :=
  timeSub_ns ..

theorem total_ns : (total data n).ns = (data n).ns - (data 0).ns := by
  induction n
  case zero       => simp [total, ns]
  case succ n hi => simp [total, hi, delta_ns, interval]

theorem sum_interval : ∑ i ∈ Finset.range n, interval data i = (data n).ns - (data 0).ns :=
  Finset.sum_range_sub (fun i => (data i).ns) n

theorem squares_eq (mean : K) :
    squares data mean n = ∑ i ∈ Finset.range n, (interval data i - mean) ^ 2 := by
  induction n
  case zero       => rfl
  case succ n hi =>
    simp only [squares, hi, Finset.sum_range_succ, timespecToDoubleNs_eq, delta_ns]
    ring

-- The statistics of the first `n` intervals, and what these values amount to.
structure StatsOf (data : ℕ → Timespec) (n : ℕ) (mean sd : ℝ) : Prop where
  mean_eq  : mean = (∑ i ∈ Finset.range n, (interval data i : ℝ)) / n
  ge_min   : ∃ i < n, interval data i ≤ mean
  le_max   : ∃ i < n, mean ≤ interval data i
  sd_sq_eq : sd ^ 2 = (∑ i ∈ Finset.range n, (interval data i - mean) ^ 2) / n
  sd_eq_zero_iff : sd = 0 ↔ ∀ i < n, ∀ j < n, interval data i = interval data j

end Profile

open Profile

variable {data : ℕ → Timespec} {prof : Profile ℝ} {n : ℕ}

section

variable (hd : prof.data = some data) (hr : prof.repeats = n + 1)

include hd hr

-- Both of the means have the same numerator, but the one of `profile_stats` divides it by the number
-- of timestamps instead of the number of intervals.
theorem profileStats_mean :
    (profileStats Real.sqrt prof).mean = ((data n).ns - (data 0).ns) / (n + 1) := by
  simp [profileStats, hd, hr, timespecToDoubleNs_eq, total_ns]

theorem profileStats_sd :
    (profileStats Real.sqrt prof).sd =
      √((∑ i ∈ Finset.range n, (interval data i - (profileStats Real.sqrt prof).mean) ^ 2) / (n + 1)) := by
  simp [profileStats, hd, hr, squares_eq]

theorem Profile.StatsOf.last_eq (hn : 0 < n)
    (h : StatsOf data n (profileStats Real.sqrt prof).mean x) : (data n).ns = (data 0).ns := by
  have hm := h.mean_eq
  rw [profileStats_mean hd hr, ←Int.cast_sum, sum_interval, Int.cast_sub] at hm
  have : (0 : ℝ) < n := by exact_mod_cast hn
  field_simp at hm
  have : ((data n).ns : ℝ) = (data 0).ns := by linarith
  exact_mod_cast this

theorem statsOf_of_constant (hn : 0 < n) (h : ∀ i < n + 1, data i = data 0) :
    StatsOf data n (profileStats Real.sqrt prof).mean (profileStats Real.sqrt prof).sd := by
  have hi : ∀ i < n, interval data i = 0 := by
    intro i hi
    simp [interval, h i (by omega), h (i + 1) (by omega)]
  have hm : (profileStats Real.sqrt prof).mean = 0 := by
    simp [profileStats_mean hd hr, h n (by omega)]
  have hs : ∑ i ∈ Finset.range n, (interval data i : ℝ) ^ 2 = 0 :=
    Finset.sum_eq_zero fun i hr => by simp [hi i (by simpa using hr)]
  have hd : (profileStats Real.sqrt prof).sd = 0 := by
    simp [profileStats_sd hd hr, hm, hs]
  rw [hm, hd]
  constructor
  case mean_eq        => simp [←Int.cast_sum, sum_interval, h n (by omega)]
  case ge_min         => exact ⟨0, hn, by simp [hi 0 hn]⟩
  case le_max         => exact ⟨0, hn, by simp [hi 0 hn]⟩
  case sd_sq_eq       => simp [hs]
  case sd_eq_zero_iff => exact iff_of_true rfl fun i h j h' => by rw [hi i h, hi j h']

end

theorem constant_of_last_eq (hz : ∀ i < n + 1, (data i).Normalized)
    (hm : ∀ i < n, (data i).ns ≤ (data (i + 1)).ns) (h : (data n).ns = (data 0).ns) :
    ∀ i < n + 1, data i = data 0 := by
  have hmono : ∀ i j, i ≤ j → j < n + 1 → (data i).ns ≤ (data j).ns := by
    intro i j hij hj
    induction j, hij using Nat.le_induction
    case base       => exact le_rfl
    case succ j _ hi => exact (hi <| by omega).trans <| hm j <| by omega
  intro i hi
  have h₁ := hmono 0 i (by omega) hi
  have h₂ := hmono i n (by omega) (by omega)
  exact (hz i hi).ext (hz 0 <| by omega) <| by omega

-- The statistics are the ones of the intervals only if there is nothing to measure.
theorem profile_stats_correct_iff (prof : Profile ℝ) (data : ℕ → Timespec) (r : ℕ) (hr : 2 ≤ r)
    (hp : prof.repeats = r) (hd : prof.data = some data) (hz : ∀ i < r, (data i).Normalized)
    (hm : ∀ i, i + 1 < r → (data i).ns ≤ (data (i + 1)).ns) :
    StatsOf data (r - 1) (profileStats Real.sqrt prof).mean (profileStats Real.sqrt prof).sd ↔
      ∀ i < r, data i = data 0 := by
  obtain ⟨n, rfl⟩ : ∃ n, r = n + 1 := ⟨r - 1, by omega⟩
  rw [Nat.add_sub_cancel]
  have hn : 0 < n := by omega
  constructor
  case mp =>
    intro h
    exact constant_of_last_eq hz (fun i hi => hm i <| by omega) <| h.last_eq hd hp hn
  case mpr => exact statsOf_of_constant hd hp hn

theorem profile_stats_correct_iff_constant :
    let prof : Profile ℝ := { repeats := 3, mean := 7, sd := 2, data := some fun _ => ⟨5, 0⟩ }
    (profileStats Real.sqrt prof).mean = 0 ∧ (profileStats Real.sqrt prof).sd = 0 := by
  intro prof
  have h := (profile_stats_correct_iff prof (fun _ => ⟨5, 0⟩) 3 (by decide) rfl rfl
    (fun _ _ => ⟨by decide, by decide⟩) (fun _ _ => le_rfl)).mpr fun _ _ => rfl
  exact ⟨by simpa [interval] using h.mean_eq, h.sd_eq_zero_iff.mpr fun _ _ _ _ => rfl⟩

-- The mean of a single interval of 10 ns is 5 ns.
theorem profile_stats_incorrect :
    let data : ℕ → Timespec := fun i => ⟨0, 10 * i⟩
    let prof : Profile ℝ := { repeats := 2, mean := 0, sd := 0, data := some data }
    (∀ i < 2, (data i).Normalized) ∧ (∀ i, i + 1 < 2 → (data i).ns ≤ (data (i + 1)).ns) ∧
      ¬StatsOf data 1 (profileStats Real.sqrt prof).mean (profileStats Real.sqrt prof).sd := by
  intro data prof
  refine ⟨fun i hi => ⟨?_, ?_⟩, fun i hi => ?_, fun h => ?_⟩
  · simp only [data]; omega
  · simp only [data]; omega
  · simp only [data, ns]; omega
  · have hl := h.last_eq rfl rfl one_pos
    simp [data, ns] at hl

end WorkloadKit.Utils
