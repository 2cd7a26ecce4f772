import Mathlib.Data.BitVec
import Mathlib.Data.Finset.Card
import Mathlib.Order.Interval.Finset.Nat
import WorkloadKit.Calibrate.State

namespace WorkloadKit.Calibrate

variable {timer : Timer} {s s' : State}

namespace Timer

theorem interval_succ (h : timer.fires (t + 1) = false) :
    timer.interval (t + 1) = timer.interval t := by
  simp only [fires, decide_eq_false_iff_not] at h
  simp only [interval, Nat.add_right_comm t 1, Nat.succ_div] at *
  simp [Nat.dvd_iff_mod_eq_zero, h]

-- Each statement takes a time of its own, so no more of them than the period fit into an interval.
theorem length_le_period {ts : List ℕ} (hd : ts.Nodup) (hk : ∀ t ∈ ts, timer.interval t = k) :
    ts.length ≤ timer.period := by
  have hp := timer.period_pos
  let f := fun t => t + timer.offset
  have hs : (ts.map f).toFinset ⊆ Finset.Ico (k * timer.period) ((k + 1) * timer.period) := by
    intro t ht
    simp only [List.mem_toFinset, List.mem_map] at ht
    obtain ⟨t, ht, rfl⟩ := ht
    have h := hk t ht
    rw [interval, Nat.div_eq_iff hp] at h
    simp only [Finset.mem_Ico, f, Nat.add_mul]
    omega
  have hc := Finset.card_le_card hs
  have hf : (ts.map f).Nodup := hd.map fun _ _ => Nat.add_right_cancel
  rw [List.toFinset_card_of_nodup hf, List.length_map, Nat.card_Ico, Nat.add_mul] at hc
  omega

end Timer

-- All of the iterations that a sample counts are executed in the same timer interval.
structure Sample.InOneInterval (timer : Timer) (x : Sample) : Prop where
  count  : x.value.toNat = x.ticks.length
  nodup  : x.ticks.Nodup
  inside : ∃ k, ∀ t ∈ x.ticks, timer.interval t = k

theorem Sample.InOneInterval.value_le {x : Sample} (h : x.InOneInterval timer) :
    x.value.toNat ≤ timer.period := by
  have ⟨_, hk⟩ := h.inside
  exact h.count ▸ Timer.length_le_period h.nodup hk

-- A call of `counter`, from its first statement to the addition of its result: the iterations that it
-- has counted are in the past, and all of them in the interval `k`.
structure Counting (timer : Timer) (niters : ULong) (ticks : List ℕ) (time k : ℕ) : Prop where
  niters : niters.toNat + ticks.length = ULONG_MAX.toNat
  nodup  : ticks.Nodup
  past   : ∀ t ∈ ticks, t < time
  inside : ∀ t ∈ ticks, timer.interval t = k

namespace Counting

variable {niters : ULong}

theorem start : Counting timer ULONG_MAX [] time k where
  niters := rfl
  nodup  := .nil
  past   := nofun
  inside := nofun

theorem later (h : Counting timer niters ticks time k) :
    Counting timer niters ticks (time + 1) k :=
  { h with past := fun t ht => Nat.lt_succ_of_lt <| h.past t ht }

theorem count (h : Counting timer niters ticks time k) (hk : timer.interval time = k)
    (hn : niters ≠ 0) : Counting timer (niters - 1) (ticks ++ [time]) (time + 1) k where
  niters := by
    have hp : 0 < niters.toNat := Nat.pos_of_ne_zero fun hz => hn <| BitVec.eq_of_toNat_eq hz
    have hs : (niters - 1).toNat = niters.toNat - 1 := BitVec.toNat_sub_of_le hp
    have := h.niters
    rw [List.length_append, List.length_singleton, hs]
    omega
  nodup  := by
    have hm : time ∉ ticks := fun hm => (h.past _ hm).false
    exact List.concat_eq_append ▸ h.nodup.concat hm
  past   := by
    intro t ht
    cases List.mem_append.mp ht
    case inl ht => exact Nat.lt_succ_of_lt <| h.past t ht
    case inr ht => exact List.mem_singleton.mp ht ▸ Nat.lt_succ_self _
  inside := by
    intro t ht
    cases List.mem_append.mp ht
    case inl ht => exact h.inside t ht
    case inr ht => exact List.mem_singleton.mp ht ▸ hk

theorem sample (h : Counting timer niters ticks time k) :
    Sample.InOneInterval timer { value := ULONG_MAX - niters, ticks } where
  count  := by
    have := h.niters
    have hs := BitVec.toNat_sub_of_le (x := ULONG_MAX) (y := niters) <| BitVec.le_def.mpr <| by omega
    simp only [hs]
    omega
  nodup  := h.nodup
  inside := ⟨k, h.inside⟩

end Counting

theorem tick_run (ha : s.armed) (hr : (tick timer s).run) :
    s.run ∧ timer.interval (s.time + 1) = timer.interval s.time := by
  simp only [tick, ha, Bool.true_and] at hr
  cases hf : timer.fires (s.time + 1) <;> simp only [hf] at hr
  case false => exact ⟨hr, Timer.interval_succ hf⟩
  case true  => contradiction

-- The values that have been added to `result`, and how many of them there are.
structure Gathered (timer : Timer) (samples : List Sample) (result : ULong) (n : ℕ) : Prop where
  inside : ∀ x ∈ samples, x.InOneInterval timer
  length : samples.length = n
  result : result = (samples.map Sample.value).sum

theorem Gathered.add {x : Sample} (h : Gathered timer samples sum n) (hx : x.InOneInterval timer) :
    Gathered timer (samples ++ [x]) (sum + x.value) (n + 1) where
  inside := by
    intro y hy
    cases List.mem_append.mp hy
    case inl hy => exact h.inside y hy
    case inr hy => exact List.mem_singleton.mp hy ▸ hx
  length := by simp [h.length]
  result := by simp [h.result]

-- The samples that have been gathered when `counter` is called.
def Call.Gathered (timer : Timer) (s : State) : Call → Prop
  | .warmUp => Calibrate.Gathered timer s.samples s.result 0
  | .gather => Calibrate.Gathered timer s.samples s.result s.i ∧ s.i < HIST

-- While `run` is set, no alarm has been delivered since the first statement of the call.
def Inv (timer : Timer) (s : State) : Prop :=
  match s.pc with
  | .setRun c  => s.armed ∧ c.Gathered timer s
  | .loop c    =>
    s.armed ∧ c.Gathered timer s ∧ s.niters ≠ 0 ∧
      ∃ k, Counting timer s.niters s.ticks s.time k ∧ (s.run → timer.interval s.time = k)
  | .ret c     => s.armed ∧ c.Gathered timer s ∧ ∃ k, Counting timer s.niters s.ticks s.time k
  | .accumulate =>
    s.armed ∧ Call.gather.Gathered timer s ∧ ∃ k, Counting timer s.niters s.ticks s.time k
  | .initI     => s.armed ∧ Gathered timer s.samples s.result 0
  | .test      => s.armed ∧ Gathered timer s.samples s.result s.i ∧ s.i ≤ HIST
  | .increment => s.armed ∧ Gathered timer s.samples s.result (s.i + 1) ∧ s.i < HIST
  | .stop | .divide => Gathered timer s.samples s.result HIST
  | .returned  =>
    ∃ result, Gathered timer s.samples result HIST ∧ s.result = result / HIST

namespace Inv

theorem init : Inv timer init :=
  ⟨rfl, nofun, rfl, rfl⟩

theorem tick (hi : Inv timer s) : Inv timer (tick timer s) := by
  cases hp : s.pc <;> simp only [Inv, Calibrate.tick, hp] at hi ⊢
  case setRun c => cases c <;> exact hi
  case loop c =>
    have ⟨ha, hg, hn, k, hk, hr⟩ := hi
    refine ⟨ha, by cases c <;> exact hg, hn, k, hk.later, fun h => ?_⟩
    have ⟨hs, hl⟩ := tick_run ha h
    exact hl.trans <| hr hs
  case ret c =>
    have ⟨ha, hg, k, hk⟩ := hi
    exact ⟨ha, by cases c <;> exact hg, k, hk.later⟩
  case accumulate =>
    have ⟨ha, hg, k, hk⟩ := hi
    exact ⟨ha, hg, k, hk.later⟩
  all_goals exact hi

-- The time that an iteration takes is not over before its tick, so it is counted together with that.
theorem exec_loop (hi : Inv timer s) (hp : s.pc = .loop c) (hr : s.run) :
    Inv timer <| Calibrate.tick timer { s with
      pc     := if s.niters - 1 ≠ 0 then .loop c else .ret c
      niters := s.niters - 1
      ticks  := s.ticks ++ [s.time] } := by
  simp only [Inv, hp] at hi
  have ⟨ha, hg, hn, k, hk, hi⟩ := hi
  have hc := hk.count (hi hr) hn
  by_cases hz : s.niters - 1 = 0
  case pos =>
    simp only [ne_eq, hz, not_true_eq_false, if_false]
    exact ⟨ha, by cases c <;> exact hg, k, hz ▸ hc⟩
  case neg =>
    simp only [ne_eq, hz, not_false_eq_true, if_true]
    refine ⟨ha, by cases c <;> exact hg, hz, k, hc, fun h => ?_⟩
    have ⟨hs, hl⟩ := tick_run (s := { s with niters := s.niters - 1 }) ha h
    exact hl.trans <| hi hs

theorem exec (hi : Inv timer s) (he : exec s = some s') : Inv timer (Calibrate.tick timer s') := by
  cases hp : s.pc
  case loop c =>
    simp only [Calibrate.exec, hp] at he
    by_cases hr : s.run
    case pos =>
      rw [if_pos hr] at he
      exact Option.some.inj he ▸ hi.exec_loop hp hr
    case neg =>
      rw [if_neg hr] at he
      simp only [Inv, hp] at hi
      have ⟨ha, hg, hn, k, hk, _⟩ := hi
      refine Option.some.inj he ▸ tick ⟨ha, by cases c <;> exact hg, k, hk⟩
  all_goals simp only [Inv, hp] at hi
  case setRun c =>
    simp only [Calibrate.exec, hp, Option.some.injEq] at he
    subst he
    have hn : ULONG_MAX ≠ 0 := by decide
    exact tick ⟨hi.left, by cases c <;> exact hi.right, hn, _, .start, fun _ => rfl⟩
  case ret c =>
    have ⟨ha, hg, hk⟩ := hi
    cases c <;> simp only [Calibrate.exec, hp, Option.some.injEq] at he <;> subst he
    case warmUp => exact tick ⟨ha, hg⟩
    case gather => exact tick ⟨ha, hg, hk⟩
  all_goals simp only [Calibrate.exec, hp, Option.some.injEq, reduceCtorEq] at he
  all_goals subst he
  case initI => exact tick ⟨hi.left, hi.right, Nat.zero_le _⟩
  case test =>
    have ⟨ha, hg, hl⟩ := hi
    by_cases h : s.i < HIST
    case pos => rw [if_pos h]; exact tick ⟨ha, hg, h⟩
    case neg => rw [if_neg h]; exact tick (hl.antisymm (not_lt.mp h) ▸ hg)
  case accumulate =>
    have ⟨ha, ⟨hg, hl⟩, k, hk⟩ := hi
    exact tick ⟨ha, hg.add hk.sample, hl⟩
  case increment => exact tick ⟨hi.left, hi.right.left, hi.right.right⟩
  case stop => exact tick hi
  case divide => exact tick ⟨_, hi, rfl⟩

theorem step (hi : Inv timer s) (he : step timer s e = some s') : Inv timer s' := by
  cases e <;> simp only [Calibrate.step, Option.map_eq_some_iff, Option.some.injEq] at he
  case exec =>
    obtain ⟨_, he, rfl⟩ := he
    exact hi.exec he
  case delay => exact he ▸ hi.tick

theorem reachable (h : (calibrate timer).Reachable s) : Inv timer s :=
  h.invariant .init fun hi _ he => hi.step he

end Inv
end WorkloadKit.Calibrate
