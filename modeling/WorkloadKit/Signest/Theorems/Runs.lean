import Mathlib.Algebra.Order.BigOperators.Group.Finset
import WorkloadKit.Library.Rest
import WorkloadKit.Signest.Theorems.Calls

namespace WorkloadKit.Signest

open Stmt
open scoped BigOperators

variable {action : ℤ} {s s' : State} {e : Event} {es : List Event} {sig : Sig} {fn : Function} {stmt : Stmt}
  {code : List Stmt} {p : Signals Sig Function Sig.queued}

-- A statement, which may send the second signal.
def Stmt.cost : Stmt → ℕ
  | kill _ => 5
  | _      => 1

def cost (code : List Stmt) : ℕ :=
  (code.map Stmt.cost).sum

-- The delivery of a signal, the statements of its handler and the return from that.
def Sig.cost : Sig → ℕ
  | usr1             => 9
  | usr2 | rt | segv => 4

def pendingCost (pending : Sig → ℕ) : ℕ :=
  ∑ sig, pending sig * sig.cost

def State.codeCost (s : State) : ℕ :=
  cost s.main + (s.handlers.map fun f => cost f.code + 1).sum

-- How many events are left at most if no other process sends a signal.
def State.rest (s : State) : ℕ :=
  if s.status = .running then s.codeCost + pendingCost s.signals.pending + 1 else 0

theorem cost_body_lt : cost (fn.body action) + 1 < fn.sig.cost := by
  cases fn
  case handler1 =>
    simp only [Function.body, handler1]
    split_ifs <;> decide
  all_goals simp [Function.body, cost, Stmt.cost, Function.sig, Sig.cost]

theorem pendingCost_update (pending : Sig → ℕ) (sig : Sig) (n : ℕ) :
    pendingCost (Function.update pending sig n) + pending sig * sig.cost = pendingCost pending + n * sig.cost :=
  @sum_restOf_update _ _ _ _ (fun sig n => n * sig.cost) pending sig n

theorem pendingCost_send_le : pendingCost (p.send sig).pending ≤ pendingCost p.pending + sig.cost := by
  rw [Signals.send]
  split
  case isTrue  => exact Nat.le_add_right ..
  case isFalse =>
    simp only
    generalize hn : (if sig.queued = true then p.pending sig + 1 else 1) = n
    have hu := pendingCost_update p.pending sig n
    have hm := Nat.mul_le_mul_right sig.cost <| show n ≤ p.pending sig + 1 by
      rw [← hn]
      split <;> omega
    rw [Nat.succ_mul] at hm
    omega

theorem pendingCost_mono {pending pending' : Sig → ℕ} (h : ∀ sig, pending sig ≤ pending' sig) :
    pendingCost pending ≤ pendingCost pending' :=
  Finset.sum_le_sum fun sig _ => Nat.mul_le_mul_right sig.cost (h sig)

theorem pendingCost_take (h : p.Deliverable sig) :
    pendingCost (p.take sig).pending + sig.cost = pendingCost p.pending := by
  have hu := pendingCost_update p.pending sig (p.pending sig - 1)
  obtain ⟨n, hn⟩ := Nat.exists_eq_succ_of_ne_zero h.right.ne'
  rw [hn, Nat.succ_mul] at hu
  simp only [Signals.take, hn]
  simp only [Nat.succ_sub_one] at hu ⊢
  omega

theorem setCode_codeCost (hc : s.code = stmt :: code) :
    (s.setCode code).codeCost + stmt.cost = s.codeCost := by
  rw [State.code] at hc
  rw [State.setCode]
  split at hc
  case h_1 hf      => simp [State.codeCost, hc, hf, cost]; omega
  case h_2 f fs hf => simp [State.codeCost, hc, hf, cost]; omega

theorem rest_lt_of_running (h : s.status = .running) (hs : s'.status = .running →
    s'.codeCost + pendingCost s'.signals.pending < s.codeCost + pendingCost s.signals.pending) :
    s'.rest < s.rest := by
  rw [State.rest, State.rest, if_pos h]
  split
  case isTrue hr => have := hs hr; omega
  case isFalse   => omega

theorem run_sent (h : Inv action s) : (run action s).sent = s.sent := by
  rw [run]
  split
  case h_1       => rw [leave]; split <;> rfl
  case h_2 hc    => rw [h.fault hc]
  case h_3 stmt code hl hc =>
    rw [setCode_eq]
    cases stmt <;> rfl

theorem deliver_sent : (deliver action s sig).sent = s.sent := by
  rw [deliver]
  simp only
  split <;> rfl

theorem run_rest_lt (h : Inv action s) (hr : s.status = .running) : (run action s).rest < s.rest := by
  refine rest_lt_of_running hr fun hs => ?_
  rw [run] at hs ⊢
  split at hs
  case h_1 hc =>
    rw [leave] at hs ⊢
    split at hs
    case h_1 => cases hs
    case h_2 f fs hf =>
      have hc : f.code = [] := by simpa [State.code, hf] using hc
      simp [State.codeCost, hf, hc, cost, Signals.setBlocked]
  case h_2 hc =>
    rw [h.fault hc] at hs
    cases hs
  case h_3 stmt code hl hc =>
    have hk := setCode_codeCost hc
    have hsig : (s.setCode code).signals = s.signals := by rw [setCode_eq]
    have hso := h.sound_of_code hc
    cases stmt
    case load => exact absurd rfl hl
    case exit => cases hs
    case kill sig =>
      obtain rfl : sig = .usr2 := hso
      have hp := @pendingCost_send_le .usr2 s.signals
      simp only [exec, hsig, State.codeCost, Stmt.cost, Sig.cost] at hk hp ⊢
      omega
    case signal sig d =>
      have hp := pendingCost_mono fun t => @Signals.pending_signal_le _ _ _ _ _ s.signals sig t d
      simp only [exec, hsig, State.codeCost, Stmt.cost] at hk hp ⊢
      omega
    all_goals
      simp only [exec, hsig, State.codeCost, Stmt.cost, Signals.setBlocked] at hk ⊢
      omega

theorem deliver_rest_lt (h : Inv action s) (hr : s.status = .running) (hd : s.signals.Deliverable sig) :
    (deliver action s sig).rest < s.rest := by
  have hp := pendingCost_take hd
  refine rest_lt_of_running hr fun hs => ?_
  rw [deliver] at hs ⊢
  simp only at hs ⊢
  split at hs
  case h_1 => cases hs
  case h_2 =>
    have hc : 0 < sig.cost := by cases sig <;> decide
    simp only [State.codeCost]
    omega
  case h_3 fn hf =>
    obtain rfl := h.handler _ _ hf
    have := @cost_body_lt action fn
    simp only [State.codeCost, call, List.map_cons, List.sum_cons, Signals.setBlocked]
    omega

-- A signal of another process leads to at most nine events.
theorem step_rest_lt (h : Inv action s) (he : step action s e = some s') :
    s'.rest + 10 * s.sent.length < s.rest + 10 * s'.sent.length := by
  simp only [step, Option.ite_none_right_eq_some] at he
  obtain ⟨hr, he⟩ := he
  cases e with simp only at he
  | run         =>
    obtain ⟨_, he⟩ := Option.ite_none_left_eq_some.mp he
    obtain rfl := Option.some.inj he
    rw [run_sent h]
    exact Nat.add_lt_add_right (run_rest_lt h hr) _
  | deliver sig =>
    obtain ⟨hd, he⟩ := Option.ite_none_right_eq_some.mp he
    obtain rfl := Option.some.inj he
    rw [deliver_sent]
    exact Nat.add_lt_add_right (deliver_rest_lt h hr hd) _
  | send sig    =>
    have hp := @pendingCost_send_le sig s.signals
    have hc : sig.cost ≤ 9 := by cases sig <;> decide
    cases he
    simp only [State.rest, hr, if_true, State.codeCost, List.length_append, List.length_singleton] at hp ⊢
    omega

theorem exists_enabled (hr : s.status = .running) :
    ∃ e : Event, (∀ sig, e ≠ .send sig) ∧ (step action s e).isSome := by
  by_cases hd : ∃ sig, s.signals.Deliverable sig
  case pos =>
    obtain ⟨sig, hd⟩ := hd
    exact ⟨.deliver sig, by simp, by simp [step, hr, hd]⟩
  case neg => exact ⟨.run, by simp, by rw [step, if_pos hr, if_neg hd]; rfl⟩

-- Other processes may send the signals at any time. A run is finite if they send finitely many, and does not
-- end before the process does. No handler is interrupted by a call of itself, except that the second one is at
-- most once if the first one can unblock its signal. The second handler has been called before `main` ends,
-- unless its signal can be ignored. The two signals that `main` sends add at most one call.
theorem handlers_of_run (he : (signest action).exec init es = some s) :
    es.length ≤ 19 + 10 * s.sent.length ∧
    (s.status = .running → ∃ e : Event, (∀ sig, e ≠ .send sig) ∧ (signest action).Enabled s e) ∧
    (∀ fn, (s.handlers.map Frame.fn).count fn ≤ if fn = .handler2 ∧ action = 2 then 2 else 1) ∧
    .after ∉ s.output ∧
    (.bye ∈ s.output → action ≠ 3 → .handler2 ∈ s.calls) ∧
    s.calls.count .handler2 ≤ s.sent.count .usr2 + s.calls.count .handler1 + 1 := by
  have step {s₁ e s₂} (h : Inv action s₁) (he : (signest action).step s₁ e = some s₂) :
      Inv action s₂ ∧ (10 * s₁.sent.length - s₁.rest : ℤ) < 10 * s₂.sent.length - s₂.rest := by
    have := step_rest_lt h he
    exact ⟨h.step he, by omega⟩
  have h := System.exec_invariant (fun h he => (step h he).left) .init he
  refine ⟨?finite, exists_enabled, fun fn => ?nested, h.after, h.bye, ?calls⟩
  case finite =>
    have := System.add_length_le (fun s : State => (10 * s.sent.length - s.rest : ℤ)) step .init he
    have hi : init.rest = 19 := by decide
    simp only [hi, show init.sent = [] from rfl, List.length_nil] at this
    omega
  case nested =>
    split
    case isTrue hf => exact hf.left ▸ h.nested.count_handler2.left
    case isFalse hf => exact h.nested.count_le_one <| not_and_or.mp hf
  case calls =>
    have := h.balanced.le
    simp only [State.balance] at this
    omega

-- The second handler is interrupted by the first one, and that one by the second one.
theorem handlers_of_run_nested :
    ∃ s es, (signest 2).exec init es = some s ∧ s.handlers.map Frame.fn = [.handler2, .handler1, .handler2] ∧
      (s.handlers.map Frame.fn).count .handler2 ≤ 2 := by
  let es : List Event := List.replicate 5 .run ++ [.send .usr2, .deliver .usr2, .send .usr1, .deliver .usr1] ++
    List.replicate 3 .run ++ [.deliver .usr2]
  have hs : ((signest 2).exec init es).map (fun s => s.handlers.map Frame.fn) =
      some [.handler2, .handler1, .handler2] := by
    decide
  obtain ⟨s, he, hf⟩ := Option.map_eq_some_iff.mp hs
  exact ⟨s, es, he, hf, (handlers_of_run he).right.right.left .handler2⟩

end WorkloadKit.Signest
