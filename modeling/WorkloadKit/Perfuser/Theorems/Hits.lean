import Mathlib.Data.Nat.Cast.Basic
import WorkloadKit.Library.Rest
import WorkloadKit.Perfuser.Theorems.Rounds

namespace WorkloadKit.Perfuser

open scoped BigOperators

variable {n : ℕ} [NeZero n] {s s' : State n} {self v : Fin n} {counters : Fin n → Counter n} {args : Args}
  {calls : List Args} {e : Event n} {es : List (Event n)} {i : ℕ}

def Main.rest (n : ℕ) : Main → ℕ
  | create i => 10 * n + 5 + (n - i)
  | join i   => 9 * n + 4 + (n - i)
  | after    => 9 * n + 3
  | free     => 9 * n + 2
  | call     => 1
  | returned => 0
  | crashed  => 0

-- How many statements are left at most if no counter overflows any more, where the threads of the next call
-- count in, too.
def State.rest (s : State n) : ℕ :=
  s.calls.length * (11 * n + 5) + s.main.rest n + ∑ v, (s.workers v).rest

-- An overflow leads to the delivery of a signal and the statements of the handler.
def Event.cost : Event n → ℕ
  | overflow _        => 7
  | main | thread _   => 0

omit [NeZero n] in
theorem change_rest (s : State n) (self : Fin n) (counters : Fin n → Counter n) (cnt : Counter n) (w : Worker n)
    (b : Barrier) : (s.change self counters cnt w b).rest + (s.workers self).rest = s.rest + w.rest := by
  have := @sum_rest_update _ _ _ _ Worker.rest s.workers self w
  simp only [State.rest, State.change]
  omega

theorem unborn_rest : (unborn : Worker n).rest = 9 :=
  rfl

omit [NeZero n] in
theorem create_rest_lt {w : Worker n} (hm : s.main = .create i) (hi : i < n) (cnt : Counter n)
    (hw : w.rest < (s.workers ⟨i, hi⟩).rest) :
    State.rest { s.change ⟨i, hi⟩ counters cnt w s.barrier with main := .create (i + 1) } < s.rest := by
  have hr := change_rest s ⟨i, hi⟩ counters cnt w s.barrier
  simp only [State.rest, hm, Main.rest] at hr ⊢
  simp only [State.change, hm] at hr ⊢
  omega

theorem main_rest_lt (h : Inv calls s) (he : main s = some s') : s'.rest < s.rest := by
  have hs := h.shape
  cases hm : s.main with simp only [Shape, hm] at hs
  | call     =>
    simp only [main, hm] at he
    split at he <;> cases he
    · simp [State.rest, hm, Main.rest]
    case h_2 hc =>
      simp only [State.rest, hm, hc, Main.rest, List.length_cons, Nat.succ_mul]
      omega
  | create i =>
    simp only [main, hm] at he
    split at he
    case isTrue hi  =>
      split at he
      case h_1 hn => exact absurd hs.left <| by rintro ⟨_, hc, _⟩; cases hn.symm.trans hc
      case h_2 hc =>
        cases he
        refine create_rest_lt hm hi _ ?_
        simp [Worker.rest, (hs.right ⟨i, hi⟩).mpr le_rfl, Pc.rest]
    case isFalse hi =>
      cases he
      simp only [State.rest, hm, Main.rest]
      omega
  | join i   =>
    simp only [main, hm] at he
    split at he
    case isTrue hi =>
      obtain ⟨_, he⟩ := Option.ite_none_right_eq_some.mp he
      cases he
      simp only [State.rest, hm, Main.rest]
      omega
    case isFalse hi =>
      cases he
      simp only [State.rest, hm, Main.rest]
      omega
  | after    =>
    simp only [main, hm] at he
    split at he <;> cases he <;> simp only [State.rest, hm, Main.rest] <;> omega
  | free     =>
    simp only [main, hm] at he
    cases he
    simp only [State.rest, hm, Main.rest, unborn_rest]
    simp
    omega
  | returned => simp [main, hm] at he

theorem step_rest_lt (h : Inv calls s) (he : step s e = some s') : s'.rest < s.rest + e.cost := by
  replace he := (Option.ite_none_left_eq_some.mp he).right
  cases e
  case main => exact main_rest_lt h he
  case thread v =>
    obtain ⟨counters, hc, hi⟩ | hw := h.live_or
    case inl =>
      obtain ⟨cnt, w, b, rfl, _, hr⟩ := advances_of_thread hc (hi v) he
      have := change_rest s v counters cnt w b
      simp only [Event.cost]
      omega
    case inr => simp [thread, hw, unborn, doWork] at he
  case overflow v =>
    obtain ⟨counters, hc, hi⟩ | hw := h.live_or
    case inl =>
      obtain ⟨cnt, w, b, rfl, _, hr⟩ := next_of_overflow hc (hi v) he
      have := change_rest s v counters cnt w b
      simp only [Event.cost]
      omega
    case inr => simp [overflow, hw, unborn] at he

omit [NeZero n] in
-- A thread can go on unless it waits for the others.
theorem thread_isSome (hc : s.gCounters = some counters)
    (hi : ThreadInv s.args v (counters v) (s.workers v)) (hu : (s.workers v).pc ≠ .unborn)
    (hr : (s.workers v).pc ≠ .returned) (ht : (s.workers v).pc.ticket ≠ some s.barrier.generation) :
    (thread s v).isSome := by
  rw [thread]
  split
  case isTrue hh  => rw [signalHandler_eq hc hi hh]; rfl
  case isFalse hh =>
    split
    case isTrue  => rfl
    case isFalse =>
      cases hp : (s.workers v).pc with
        simp only [doWork, hp, access_eq hc (hi.created hu).left, Option.isSome_some]
      | unborn    => exact absurd hp hu
      | returned  => exact absurd hp hr
      | waiting t =>
        rw [if_neg fun hg => ht <| by simp [hp, Pc.ticket, hg]]
        rfl

-- If a thread waits at the barrier, then there is one that has not arrived.
theorem exists_thread_isSome (h : Inv calls s) (hc : s.gCounters = some counters)
    (hi : ∀ v, ThreadInv s.args v (counters v) (s.workers v)) (hu : ∀ v, (s.workers v).pc ≠ .unborn)
    (hr : (s.workers v).pc ≠ .returned) : ∃ u, (thread s u).isSome := by
  by_cases ht : (s.workers v).pc.ticket = some s.barrier.generation
  case neg => exact ⟨v, thread_isSome hc (hi v) (hu v) hr ht⟩
  case pos =>
    have hv := h.synced.waiting v _ ht
    have hvl := h.synced.le_succ v
    have ⟨u, hg⟩ := h.synced.exists_eq_generation
    have hp : (s.workers v).pc.passed = true := by
      cases hp : (s.workers v).pc <;> simp_all [Pc.ticket, Pc.passed]
    have hn : (s.workers u).pc.passed = false := by
      by_contra hn
      simp only [Pc.part, hp, Bool.of_not_eq_false hn, Bool.toNat_true] at hv hg
      omega
    refine ⟨u, thread_isSome hc (hi u) (hu u) (fun hp => ?_) fun hp => ?_⟩
    · simp [hp, Pc.passed] at hn
    · cases hq : (s.workers u).pc <;> simp_all [Pc.ticket, Pc.passed]

theorem exists_enabled (h : Inv calls s) (hm : s.main ≠ .returned) :
    ∃ e : Event n, e.cost = 0 ∧ (step s e).isSome := by
  have hs := h.shape
  have hnc : s.main ≠ .crashed := fun hc => by simp [Shape, hc] at hs
  have run (hv : ∃ u, (thread s u).isSome) : ∃ e : Event n, e.cost = 0 ∧ (step s e).isSome := by
    obtain ⟨u, hu⟩ := hv
    exact ⟨.thread u, rfl, by rwa [step, if_neg hnc]⟩
  have next (hv : (main s).isSome) : ∃ e : Event n, e.cost = 0 ∧ (step s e).isSome :=
    ⟨.main, rfl, by rwa [step, if_neg hnc]⟩
  cases hp : s.main with simp only [Shape, hp] at hs
  | call     =>
    refine next ?_
    simp only [main, hp]
    split <;> rfl
  | create i =>
    obtain ⟨⟨_, hc, _⟩, _⟩ := hs
    refine next ?_
    simp only [main, hp, hc]
    split <;> rfl
  | join i   =>
    obtain ⟨⟨_, hc, hi⟩, hr⟩ := hs
    by_cases hv : ∃ hin : i < n, (s.workers ⟨i, hin⟩).pc ≠ .returned
    case pos =>
      obtain ⟨hin, hv⟩ := hv
      exact run <| exists_thread_isSome h hc hi (fun v => (hr v).left) hv
    case neg =>
      refine next ?_
      simp only [main, hp]
      split
      case isTrue hin => rw [if_pos <| not_not.mp fun hn => hv ⟨hin, hn⟩]; rfl
      case isFalse    => rfl
  | after    =>
    obtain ⟨⟨_, hc, _⟩, _⟩ := hs
    exact next <| by simp [main, hp, hc]
  | free     => exact next <| by simp [main, hp]
  | returned => exact absurd hp hm

end WorkloadKit.Perfuser
