import Mathlib.Algebra.Group.Action.Defs
import Mathlib.Algebra.Order.BigOperators.Group.List
import Mathlib.Algebra.Order.Ring.Nat
import WorkloadKit.Calibrate.Theorems.Invariant

namespace WorkloadKit.Calibrate

variable {timer : Timer} {s : State}

theorem toNat_sum_le (xs : List ULong) : xs.sum.toNat ≤ (xs.map BitVec.toNat).sum := by
  induction xs
  case nil => simp
  case cons x xs hi =>
    simp only [List.sum_cons, List.map_cons, BitVec.toNat_add]
    exact (Nat.mod_le ..).trans <| Nat.add_le_add_left hi _

theorem Gathered.sum_le (h : Gathered timer samples sum n) : sum.toNat ≤ n * timer.period := by
  rw [h.result, ←h.length]
  refine (toNat_sum_le _).trans ?_
  have hc := List.sum_le_card_nsmul ((samples.map Sample.value).map BitVec.toNat) timer.period
  simp only [List.length_map, smul_eq_mul, List.map_map] at hc ⊢
  apply hc
  intro v hv
  obtain ⟨x, hx, rfl⟩ := List.mem_map.mp hv
  exact (h.inside x hx).value_le

theorem Gathered.average_le (h : Gathered timer samples sum HIST) :
    (sum / (HIST : ULong)).toNat ≤ timer.period := by
  have := h.sum_le
  rw [BitVec.toNat_udiv]
  exact Nat.div_le_of_le_mul this

theorem Inv.inside (hi : Inv timer s) : ∀ x ∈ s.samples, x.InOneInterval timer := by
  cases hp : s.pc <;> simp only [Inv, hp] at hi
  case setRun c => cases c; exacts [hi.right.inside, hi.right.left.inside]
  case loop c   => cases c; exacts [hi.right.left.inside, hi.right.left.left.inside]
  case ret c    => cases c; exacts [hi.right.left.inside, hi.right.left.left.inside]
  case accumulate => exact hi.right.left.left.inside
  case initI      => exact hi.right.inside
  case test | increment => exact hi.right.left.inside
  case stop | divide    => exact hi.inside
  case returned         => obtain ⟨_, hg, _⟩ := hi; exact hg.inside

theorem average_le_period (timer : Timer) {s : State} (h : (calibrate timer).Reachable s) :
    (∀ x ∈ s.samples, x.InOneInterval timer) ∧
    (s.pc = .returned → s.samples.length = HIST ∧
      s.result = (s.samples.map Sample.value).sum / HIST ∧ s.result.toNat ≤ timer.period) := by
  have hi := Inv.reachable h
  refine ⟨hi.inside, fun hp => ?_⟩
  simp only [Inv, hp] at hi
  obtain ⟨_, hg, hr⟩ := hi
  exact ⟨hg.length, hg.result ▸ hr, hr ▸ hg.average_le⟩

-- The timer fires after every fifth statement, which leaves four iterations for all values but the first one.
theorem average_le_period_three :
    let timer : Timer := { period := 5, offset := 0, period_pos := by decide }
    ∃ es s, (calibrate timer).exec init es = some s ∧ s.pc = .returned ∧ s.result = 3 ∧
      s.samples.length = HIST ∧ s.result = (s.samples.map Sample.value).sum / HIST ∧
      s.result.toNat ≤ timer.period ∧ ∀ x ∈ s.samples, x.InOneInterval timer := by
  intro timer
  let es := List.replicate 107 Event.exec
  have he : ((calibrate timer).exec init es).map (fun s => (s.pc, s.result)) = some (.returned, 3) := by
    decide +kernel
  have ⟨s, hs, hc⟩ := Option.map_eq_some_iff.mp he
  have ⟨hp, hr⟩ := Prod.mk.inj hc
  have ⟨hx, ha⟩ := average_le_period timer <| .of_exec hs
  have ⟨hl, hv, hle⟩ := ha hp
  exact ⟨es, s, hs, hp, hr, hl, hv, hle, hx⟩

end WorkloadKit.Calibrate
