import Mathlib.Algebra.Ring.Nat
import Mathlib.Order.Monotone.Basic
import Mathlib.Tactic.Common

namespace WorkloadKit

-- A transition system whose steps are guarded: `step s e` is `none` when the event `e` can not
-- happen in the state `s`. As `step` is a function, concrete schedules can be executed, and the
-- guards that the proofs use are the ones that an execution runs into.
structure System (σ ε : Type*) where
  init : σ
  step : σ → ε → Option σ

namespace System

variable {σ ε : Type*} (sys : System σ ε)

-- Executes a schedule from a given state, if none of its events is disabled on the way.
def exec (s : σ) : List ε → Option σ
  | []      => some s
  | e :: es => (sys.step s e).bind (exec · es)

-- The states that can be reached by steps which all meet the condition `C`.
inductive ReachableUnder (C : σ → ε → Prop) : σ → Prop
  | init : ReachableUnder C sys.init
  | step {s₁ e s₂} : ReachableUnder C s₁ → C s₁ e → sys.step s₁ e = some s₂ → ReachableUnder C s₂

abbrev Reachable : σ → Prop :=
  sys.ReachableUnder fun _ _ => True

def Enabled (s : σ) (e : ε) : Prop :=
  (sys.step s e).isSome

variable {sys} {s s₁ s₂ s₃ : σ} {e : ε} {es : List ε}

instance : Decidable (sys.Enabled s e) :=
  inferInstanceAs <| Decidable ((sys.step s e).isSome = true)

theorem exec_cons_eq_some :
    sys.exec s₁ (e :: es) = some s₃ ↔ ∃ s₂, sys.step s₁ e = some s₂ ∧ sys.exec s₂ es = some s₃ := by
  simp [exec, Option.bind_eq_some_iff]

theorem exec_append_eq_some {es₁ es₂ : List ε} :
    sys.exec s₁ (es₁ ++ es₂) = some s₃ ↔ ∃ s₂, sys.exec s₁ es₁ = some s₂ ∧ sys.exec s₂ es₂ = some s₃ := by
  induction es₁ generalizing s₁
  case nil     => simp [exec]
  case cons hi =>
    simp only [List.cons_append, exec_cons_eq_some, hi]
    exact ⟨fun ⟨s, hs, s₂, h₁, h₂⟩ => ⟨s₂, ⟨s, hs, h₁⟩, h₂⟩, fun ⟨s₂, ⟨s, hs, h₁⟩, h₂⟩ => ⟨s, hs, s₂, h₁, h₂⟩⟩

namespace ReachableUnder

variable {C D : σ → ε → Prop} {I : σ → Prop}

theorem next (h : sys.Reachable s₁) (hs : sys.step s₁ e = some s₂) : sys.Reachable s₂ :=
  .step h trivial hs

theorem mono (hm : ∀ {s₁ e s₂}, sys.ReachableUnder C s₁ → C s₁ e → sys.step s₁ e = some s₂ → D s₁ e)
    (h : sys.ReachableUnder C s) : sys.ReachableUnder D s := by
  induction h
  case init            => exact .init
  case step h hc hs hi => exact .step hi (hm h hc hs) hs

theorem exec_of_forall (h : sys.ReachableUnder C s₁) (hc : ∀ e ∈ es, ∀ s, C s e)
    (he : sys.exec s₁ es = some s₂) : sys.ReachableUnder C s₂ := by
  induction es generalizing s₁
  case nil  => exact Option.some.inj he ▸ h
  case cons e es hi =>
    have ⟨_, hs, he⟩ := exec_cons_eq_some.mp he
    have ⟨hc, hcs⟩ := List.forall_mem_cons.mp hc
    exact hi (h.step (hc s₁) hs) hcs he

theorem exec (h : sys.Reachable s₁) (he : sys.exec s₁ es = some s₂) : sys.Reachable s₂ :=
  h.exec_of_forall (fun _ _ _ => trivial) he

theorem of_exec (h : sys.exec sys.init es = some s) : sys.Reachable s :=
  ReachableUnder.exec .init h

-- The invariant rule: what holds initially and is preserved by every step that meets the condition
-- of the run, holds in each state of the run.
theorem invariant (init : I sys.init)
    (step : ∀ {s₁ e s₂}, I s₁ → C s₁ e → sys.step s₁ e = some s₂ → I s₂)
    (h : sys.ReachableUnder C s) : I s := by
  induction h
  case init          => exact init
  case step hc hs hi => exact step hi hc hs

end ReachableUnder

-- The invariant rule for a run that starts in any state.
theorem exec_invariant {I : σ → Prop} (step : ∀ {s₁ e s₂}, I s₁ → sys.step s₁ e = some s₂ → I s₂)
    (h : I s₁) (he : sys.exec s₁ es = some s₂) : I s₂ := by
  induction es generalizing s₁
  case nil  => exact Option.some.inj he ▸ h
  case cons hi =>
    have ⟨_, hs, he⟩ := exec_cons_eq_some.mp he
    exact hi (step h hs) he

-- A quantity that grows with every step bounds the length of a run.
theorem add_length_le {I : σ → Prop} (quantity : σ → ℤ)
    (step : ∀ {s₁ e s₂}, I s₁ → sys.step s₁ e = some s₂ → I s₂ ∧ quantity s₁ < quantity s₂) (h : I s₁)
    (he : sys.exec s₁ es = some s₂) : quantity s₁ + es.length ≤ quantity s₂ := by
  induction es generalizing s₁
  case nil =>
    cases he
    simp
  case cons hi =>
    have ⟨s, hs, he⟩ := exec_cons_eq_some.mp he
    have ⟨h, hq⟩ := step h hs
    have := hi h he
    rw [List.length_cons]
    omega

-- A run is finite if every step of it does a part of some work.
theorem work_add_length_le {I : σ → Prop} (work : σ → ℕ)
    (step : ∀ {s₁ e s₂}, I s₁ → sys.step s₁ e = some s₂ → I s₂ ∧ work s₁ < work s₂) (h : I s₁)
    (he : sys.exec s₁ es = some s₂) : work s₁ + es.length ≤ work s₂ := by
  have := add_length_le (work ·) (fun h hs => (step h hs).imp_right Int.ofNat_lt.mpr) h he
  omega

-- The steps may all have to meet a condition.
theorem work_add_length_le_of_forall {I : σ → Prop} {C : ε → Prop} (work : σ → ℕ)
    (step : ∀ {s₁ e s₂}, I s₁ → C e → sys.step s₁ e = some s₂ → I s₂ ∧ work s₁ < work s₂) (h : I s₁)
    (hc : ∀ e ∈ es, C e) (he : sys.exec s₁ es = some s₂) : work s₁ + es.length ≤ work s₂ := by
  induction es generalizing s₁
  case nil =>
    cases he
    simp
  case cons hi =>
    have ⟨s, hs, he⟩ := exec_cons_eq_some.mp he
    have ⟨hc, hcs⟩ := List.forall_mem_cons.mp hc
    have ⟨h, hw⟩ := step h hc hs
    have := hi h hcs he
    rw [List.length_cons]
    omega

-- A run is also finite if every step of it leaves less to be done.
theorem rest_add_length_le {I : σ → Prop} (rest : σ → ℕ)
    (step : ∀ {s₁ e s₂}, I s₁ → sys.step s₁ e = some s₂ → I s₂ ∧ rest s₂ < rest s₁) (h : I s₁)
    (he : sys.exec s₁ es = some s₂) : rest s₂ + es.length ≤ rest s₁ := by
  have := add_length_le (-rest ·) (fun h hs => (step h hs).imp_right fun hr => by omega) h he
  omega

-- The steps may all have to meet a condition.
theorem rest_add_length_le_of_forall {I : σ → Prop} {C : ε → Prop} (rest : σ → ℕ)
    (step : ∀ {s₁ e s₂}, I s₁ → C e → sys.step s₁ e = some s₂ → I s₂ ∧ rest s₂ < rest s₁) (h : I s₁)
    (hc : ∀ e ∈ es, C e) (he : sys.exec s₁ es = some s₂) : I s₂ ∧ rest s₂ + es.length ≤ rest s₁ := by
  induction es generalizing s₁
  case nil =>
    cases he
    exact ⟨h, by simp⟩
  case cons hi =>
    have ⟨s, hs, he⟩ := exec_cons_eq_some.mp he
    have ⟨hc, hcs⟩ := List.forall_mem_cons.mp hc
    have ⟨h, hr⟩ := step h hc hs
    have ⟨h, hl⟩ := hi h hcs he
    rw [List.length_cons]
    exact ⟨h, by omega⟩

-- A goal is within reach if, as long as it is not met, some step leaves less to be done.
theorem exists_exec_of_rest {I Goal : σ → Prop} (rest : σ → ℕ)
    (progress : ∀ {s}, I s → ¬Goal s → ∃ e s', sys.step s e = some s' ∧ I s' ∧ rest s' < rest s)
    (h : I s) : ∃ es s', sys.exec s es = some s' ∧ I s' ∧ Goal s' := by
  induction hk : rest s using Nat.strongRecOn generalizing s
  case ind k hi =>
    by_cases hg : Goal s
    case pos => exact ⟨[], s, rfl, h, hg⟩
    case neg =>
      have ⟨e, s₁, hs, h₁, hr⟩ := progress h hg
      have ⟨es, s₂, he, hg⟩ := hi _ (hk ▸ hr) h₁ rfl
      exact ⟨e :: es, s₂, exec_cons_eq_some.mpr ⟨s₁, hs, he⟩, hg⟩

-- The same for a step that does a part of a bounded amount of work.
theorem exists_exec_of_work {I Goal : σ → Prop} (work : σ → ℕ) (bound : ℕ)
    (le : ∀ {s}, I s → work s ≤ bound)
    (progress : ∀ {s}, I s → ¬Goal s → ∃ e s', sys.step s e = some s' ∧ I s' ∧ work s < work s')
    (h : I s) : ∃ es s', sys.exec s es = some s' ∧ I s' ∧ Goal s' := by
  refine exists_exec_of_rest (bound - work ·) (fun h hg => ?_) h
  have ⟨e, s', hs, h', hw⟩ := progress h hg
  have := le h'
  exact ⟨e, s', hs, h', by omega⟩

-- If all steps preserve the invariant, then the goal stays within reach.
theorem exists_exec_of_progress {I Goal : σ → Prop} (work : σ → ℕ) (bound : ℕ)
    (step : ∀ {s₁ e s₂}, I s₁ → sys.step s₁ e = some s₂ → I s₂) (le : ∀ {s}, I s → work s ≤ bound)
    (progress : ∀ {s}, I s → ¬Goal s → ∃ e s', sys.step s e = some s' ∧ work s < work s') (h : I s) :
    ∃ es s', sys.exec s es = some s' ∧ Goal s' := by
  have next {s} (h : I s) (hg : ¬Goal s) : ∃ e s', sys.step s e = some s' ∧ I s' ∧ work s < work s' :=
    have ⟨e, s', hs, hw⟩ := progress h hg
    ⟨e, s', hs, step h hs, hw⟩
  have ⟨es, s', he, _, hg⟩ := exists_exec_of_work work bound le next h
  exact ⟨es, s', he, hg⟩

end System
end WorkloadKit
