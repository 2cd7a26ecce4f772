import Mathlib.Algebra.BigOperators.Group.Finset.Piecewise
import WorkloadKit.SchedFreq.Theorems.Invariant

namespace WorkloadKit.SchedFreq

open TokenRing

variable {exp : Experiment} {s : State}

namespace Inv

theorem count_acquired (hi : Inv exp s) (hr : r < exp.n) :
    s.acquired.count r = (s.workers r).waits := by
  rw [hi.waits r hr, visits, ←hi.order]

theorem acquired_getElem (hi : Inv exp s) (hm : m < s.acquired.length) :
    s.acquired[m] = m % exp.n := by
  apply Option.some.inj
  rw [←List.getElem?_eq_getElem, hi.order, Stream'.getElem?_take hm]
  rfl

theorem token_unique (hi : Inv exp s) :
    (∑ r ∈ Finset.range exp.n, s.sems r) + (holders exp s).card = 1 := by
  have hlt {m} : m % exp.n < exp.n := Nat.mod_lt m exp.n_pos
  cases hi.token
  case rests hs hh =>
    have he : holders exp s = ∅ := Finset.filter_eq_empty_iff.mpr fun r hr => hh r (by simpa using hr)
    rw [Finset.sum_congr rfl fun r hr => hs r (by simpa using hr), he]
    simp [hlt]
  case carried k hk hs hh =>
    have he : holders exp s = {k % exp.n} := by
      ext r
      simp only [holders, Finset.mem_filter, Finset.mem_range, Finset.mem_singleton]
      constructor
      case mp  => exact fun ⟨hr, h⟩ => (hh r hr |>.mp h).symm
      case mpr => rintro rfl; exact ⟨hlt, hh _ hlt |>.mpr rfl⟩
    rw [Finset.sum_congr rfl fun r hr => hs r (by simpa using hr), he]
    simp

theorem visits_le (hi : Inv exp s) : ∀ r < exp.n, visits exp.n s.acquired.length r ≤ exp.repeats :=
  fun r hr => hi.waits r hr ▸ (hi.bounded r hr).waits_le

theorem enabled_of_not_wait (hr : r < exp.n) (hw : (s.workers r).pc ≠ .wait)
    (hf : (s.workers r).pc ≠ .returned) : (ring exp).Enabled s r := by
  cases h : (s.workers r).pc <;> simp_all [System.Enabled, ring, SchedFreq.step, semsWrk]

-- If the worker whose semaphore holds the token has returned, then no other worker can be waiting.
theorem progress (hi : Inv exp s) (hr : r < exp.n) (hf : (s.workers r).pc ≠ .returned) :
    ∃ r, (ring exp).Enabled s r := by
  have hlt {m} : m % exp.n < exp.n := Nat.mod_lt m exp.n_pos
  cases hi.token
  case carried k _ _ hh =>
    have hp := hh _ hlt |>.mpr rfl
    exact ⟨k % exp.n, enabled_of_not_wait hlt (by simp [hp]) (by simp [hp])⟩
  case rests hs _ =>
    let t := s.acquired.length % exp.n
    by_cases ht : (s.workers t).pc = .returned
    case neg =>
      refine ⟨t, ?_⟩
      by_cases hw : (s.workers t).pc = .wait
      case pos =>
        have hp : 0 < s.sems t := by rw [hs t hlt, if_pos rfl]; exact Nat.one_pos
        simp [System.Enabled, ring, SchedFreq.step, semsWrk, hw, hp, show t < exp.n from hlt]
      case neg => exact enabled_of_not_wait hlt hw ht
    case pos =>
      have hv : visits exp.n s.acquired.length t = exp.repeats := by
        have hb := hi.bounded t hlt
        have hw := hi.waits t hlt
        simp only [Worker.Bounded, Worker.waits, ht] at hb hw
        exact hw.symm.trans hb
      obtain ⟨_, ha⟩ := all_visited exp.n_pos hi.visits_le hv
      refine ⟨r, enabled_of_not_wait hr (fun hw => ?_) hf⟩
      have hb := hi.bounded r hr
      have hw' := hi.waits r hr
      simp only [Worker.Bounded, Worker.waits, hw, ha r hr] at hb hw'
      omega

theorem finished (hi : Inv exp s) (hf : ∀ r < exp.n, (s.workers r).pc = .returned) :
    (∀ r < exp.n, s.acquired.count r = exp.repeats) ∧
      ∀ r < exp.n, s.sems r = if r = 0 then 1 else 0 := by
  have hw : ∀ r < exp.n, visits exp.n s.acquired.length r = exp.repeats := by
    intro r hr
    have hb := hi.bounded r hr
    have hw := hi.waits r hr
    simp only [Worker.Bounded, Worker.waits, hf r hr] at hb hw
    exact hw.symm.trans hb
  constructor
  case left => exact fun r hr => (hi.count_acquired hr).trans <| (hi.waits r hr).trans <| hw r hr
  case right =>
    have hlt := Nat.mod_lt s.acquired.length exp.n_pos
    cases hi.token
    case carried k _ _ hh =>
      have hlt := Nat.mod_lt k exp.n_pos
      simpa [hf _ hlt] using hh _ hlt
    case rests hs _ =>
      obtain ⟨hz, _⟩ := all_visited exp.n_pos hi.visits_le <| hw _ hlt
      intro r hr
      rw [hs r hr, hz]
      simp [eq_comm]

end Inv

theorem round_robin (exp : Experiment) {s : State} (h : (ring exp).Reachable s) :
    (∑ r ∈ Finset.range exp.n, s.sems r) + (holders exp s).card = 1 ∧
    (∀ m (hm : m < s.acquired.length), s.acquired[m] = m % exp.n) ∧
    (∀ r₁ r₂, r₁ ≤ r₂ → r₂ < exp.n → s.acquired.count r₂ ≤ s.acquired.count r₁ ∧
      s.acquired.count r₁ ≤ s.acquired.count r₂ + 1) ∧
    ((∃ r < exp.n, (s.workers r).pc ≠ .returned) → ∃ r, (ring exp).Enabled s r) ∧
    ((∀ r < exp.n, (s.workers r).pc = .returned) →
      (∀ r < exp.n, s.acquired.count r = exp.repeats) ∧
        ∀ r < exp.n, s.sems r = if r = 0 then 1 else 0) := by
  have hi := Inv.reachable h
  refine ⟨hi.token_unique, fun _ => hi.acquired_getElem, ?_, ?_, hi.finished⟩
  · intro r₁ r₂ hr hr₂
    rw [hi.order]
    exact ⟨visits_anti hr hr₂, visits_le_visits_add_one (hr.trans_lt hr₂) hr₂⟩
  · rintro ⟨r, hr, hf⟩
    exact hi.progress hr hf

-- Two workers pass the token to each other once.
theorem round_robin_two :
    let exp : Experiment := { n := 2, repeats := 1, n_pos := two_pos }
    ∃ rs s, (ring exp).exec init rs = some s ∧ s.acquired.length = 2 ∧
      (∑ r ∈ Finset.range 2, s.sems r) + (holders exp s).card = 1 ∧
      ∀ m (hm : m < s.acquired.length), s.acquired[m] = m % 2 := by
  intro exp
  let rs := [0, 1, 0, 0, 1, 0, 1, 0, 1, 1]
  have he : ((ring exp).exec init rs).map (·.acquired.length) = some 2 := by decide
  have ⟨s, hs, hl⟩ := Option.map_eq_some_iff.mp he
  have ⟨ht, ha, _⟩ := round_robin exp <| .of_exec hs
  exact ⟨rs, s, hs, hl, ht, ha⟩

end WorkloadKit.SchedFreq
