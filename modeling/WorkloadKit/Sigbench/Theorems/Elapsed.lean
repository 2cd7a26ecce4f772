import Mathlib.Algebra.Order.BigOperators.Group.Finset
import WorkloadKit.Sigbench.Theorems.Once

namespace WorkloadKit.Sigbench

open Utils
open scoped BigOperators

variable {n : ℕ} {repeats : ℤ} {s s' : State n} {self v : Fin n} {w : Worker} {c : Pc}
  {e : Event n} {es : List (Event n)}

def Pc.rest (repeats : ℤ) : Pc → ℕ
  | setaffinity   => repeats.toNat + 14
  | profileInit   => repeats.toNat + 13
  | barrierOne    => repeats.toNat + 12
  | waitingOne _  => repeats.toNat + 11
  | clockOne      => repeats.toNat + 10
  | profileFunc i => repeats.toNat - i + 9
  | clockTwo      => 8
  | barrierTwo    => 7
  | waitingTwo _  => 6
  | critical      => 5
  | test          => 4
  | set           => 3
  | leave         => 2
  | report        => 1
  | returned      => 0

-- How many statements the threads have left, unless the program has crashed.
def State.rest (repeats : ℤ) (s : State n) : ℕ :=
  if s.crashed then 0 else ∑ v, (s.workers v).pc.rest repeats

-- The clock goes on at any time.
def Event.cost : Event n → ℕ
  | tick     => 1
  | thread _ => 0

theorem rest_lt (hc : s.crashed = false) (hs : s'.crashed = false)
    (hu : s'.workers = Function.update s.workers self w)
    (hw : w.pc.rest repeats < (s.workers self).pc.rest repeats) : s'.rest repeats < s.rest repeats := by
  rw [State.rest, State.rest, hc, hs, hu]
  exact @sum_rest_update_lt _ _ _ _ (fun w : Worker => w.pc.rest repeats) _ _ _ hw

theorem crash_rest_lt (hc : s.crashed = false) (hw : 0 < (s.workers self).pc.rest repeats) :
    State.rest repeats { s with crashed := true } < s.rest repeats := by
  rw [State.rest, State.rest, hc]
  exact hw.trans_le <| Finset.single_le_sum (f := fun v => (s.workers v).pc.rest repeats)
    (fun _ _ => Nat.zero_le _) <| Finset.mem_univ self

theorem thread_rest_lt (hf : s.crashed = false) (he : sigbenchThread repeats s self = some s') :
    s'.rest repeats < s.rest repeats := by
  have goto {c : Pc} (hc : c.rest repeats < (s.workers self).pc.rest repeats) :
      (s.goto self c).rest repeats < s.rest repeats :=
    rest_lt hf hf rfl hc
  cases hp : (s.workers self).pc <;>
    simp only [sigbenchThread, hp, Option.some.injEq, reduceCtorEq] at he
  case setaffinity | report                  => exact he ▸ goto (by simp [hp, Pc.rest])
  case barrierOne | barrierTwo | set | leave => exact he ▸ rest_lt hf hf rfl (by simp [hp, Pc.rest])
  case clockOne | clockTwo                   => exact he ▸ rest_lt hf hf rfl (by simp [hp, Pc.rest])
  case profileInit =>
    subst he
    split
    case isTrue  => exact @crash_rest_lt _ _ _ self hf <| by simp [hp, Pc.rest]
    case isFalse => exact goto <| by simp [hp, Pc.rest]
  case waitingOne | waitingTwo =>
    obtain ⟨_, he⟩ := Option.ite_none_left_eq_some.mp he
    exact Option.some.inj he ▸ goto (by simp [hp, Pc.rest])
  case profileFunc i =>
    subst he
    split
    case isTrue hi =>
      refine rest_lt hf hf rfl ?_
      simp only [hp, Pc.rest]
      omega
    case isFalse => exact goto <| by simp [hp, Pc.rest]
  case critical =>
    obtain ⟨_, _, rfl⟩ := Option.map_eq_some_iff.mp he
    exact rest_lt hf hf rfl <| by simp [hp, Pc.rest]
  case test =>
    subst he
    split <;> exact goto <| by simp [hp, Pc.rest]

theorem step_rest_lt (he : (sigbenchOnce n repeats).step s e = some s') :
    s'.rest repeats < s.rest repeats + e.cost := by
  obtain ⟨hf, he⟩ := Option.ite_none_left_eq_some.mp he
  cases e
  case thread => exact thread_rest_lt (Bool.of_not_eq_true hf) he
  case tick   =>
    cases he
    simp [State.rest, Event.cost]

-- A thread can go on unless it waits for the others.
theorem thread_isSome (hr : (s.workers v).pc ≠ .returned)
    (ht : (s.workers v).pc.ticket ≠ some s.barrier.generation)
    (hl : (s.workers v).pc = .critical → s.critical = none) : (sigbenchThread repeats s v).isSome := by
  cases hp : (s.workers v).pc <;> simp only [sigbenchThread, hp, Option.isSome_some]
  case waitingOne | waitingTwo =>
    rw [wait, if_neg fun hg => ht <| by rw [hp, hg]; rfl]
    rfl
  case critical =>
    rw [hl hp]
    rfl
  case returned => exact absurd hp hr

theorem Pc.arrivals_le (c : Pc) : c.arrivals ≤ 2 := by
  cases c <;> simp [arrivals]

theorem exists_thread_isSome (h : Inv repeats s) (hr : (s.workers v).pc ≠ .returned) :
    ∃ u, (sigbenchThread repeats s u).isSome := by
  have ⟨u, hu, ht⟩ : ∃ u, (s.workers u).pc ≠ .returned ∧
      (s.workers u).pc.ticket ≠ some s.barrier.generation := by
    by_cases ht : (s.workers v).pc.ticket = some s.barrier.generation
    case neg => exact ⟨v, hr, ht⟩
    case pos =>
      -- The thread waits for somebody who has not arrived at the barrier yet.
      have hv : (s.workers v).pc.arrivals = s.barrier.generation + 1 := h.synced.waiting v _ ht
      have := (s.workers v).pc.arrivals_le
      have ⟨u, hu⟩ := h.synced.exists_eq_generation
      replace hu : (s.workers u).pc.arrivals = s.barrier.generation := hu
      refine ⟨u, fun hp => ?_, fun hp => ?_⟩
      · have hu : 2 = s.barrier.generation := by simpa [hp, Pc.arrivals] using hu
        omega
      · have hw : (s.workers u).pc.arrivals = s.barrier.generation + 1 := h.synced.waiting u _ hp
        omega
  by_cases hc : (s.workers u).pc = .critical
  case neg => exact ⟨u, thread_isSome hu ht fun hp => absurd hp hc⟩
  case pos =>
    cases hl : s.critical
    case none   => exact ⟨u, thread_isSome hu ht fun _ => hl⟩
    case some x =>
      have hx := (h.critical x).mp hl
      refine ⟨x, thread_isSome ?_ ?_ ?_⟩ <;>
        cases hp : (s.workers x).pc <;> simp_all [Pc.inCritical, Pc.ticket]

-- If the number of repetitions is negative, then no thread gets over `profile_init`, and otherwise the program
-- does not crash.
structure Inits (repeats : ℤ) (s : State n) : Prop where
  alive : 0 ≤ repeats → s.crashed = false
  early : repeats < 0 → ∀ v, (s.workers v).pc = .setaffinity ∨ (s.workers v).pc = .profileInit

namespace Inits

theorem init : Inits repeats (sigbenchOnce n repeats).init where
  alive _   := rfl
  early _ _ := .inl rfl

theorem step (h : Inits repeats s) (he : (sigbenchOnce n repeats).step s e = some s') : Inits repeats s' := by
  replace he := (Option.ite_none_left_eq_some.mp he).right
  cases e
  case tick => exact Option.some.inj he ▸ ⟨h.alive, h.early⟩
  case thread v =>
    constructor
    case alive =>
      intro hr
      refine Eq.trans ?_ <| h.alive hr
      cases hp : (s.workers v).pc <;> simp only [sigbenchThread, hp, Option.some.injEq, reduceCtorEq] at he
      case waitingOne | waitingTwo => exact Option.some.inj (Option.ite_none_left_eq_some.mp he).right ▸ rfl
      case critical =>
        obtain ⟨_, _, rfl⟩ := Option.map_eq_some_iff.mp he
        rfl
      case profileInit => exact he ▸ by rw [if_neg hr.not_gt]; rfl
      case profileFunc | test =>
        subst he
        split <;> rfl
      all_goals exact he ▸ rfl
    case early =>
      intro hr
      rcases h.early hr v with hp | hp
      all_goals simp only [sigbenchThread, hp, if_pos hr, Option.some.injEq] at he
      case inr => exact he ▸ h.early hr
      case inl =>
        subst he
        exact (Function.forall_update_iff s.workers fun _ w => w.pc = .setaffinity ∨ w.pc = .profileInit).mpr
          ⟨.inr rfl, fun u _ => h.early hr u⟩

theorem reachable (h : (sigbenchOnce n repeats).Reachable s) : Inits repeats s :=
  h.invariant init fun h _ he => h.step he

end Inits

end WorkloadKit.Sigbench
