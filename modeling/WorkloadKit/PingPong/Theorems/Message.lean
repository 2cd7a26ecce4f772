import Mathlib.Algebra.BigOperators.Group.List.Basic
import Mathlib.Algebra.Ring.Nat
import WorkloadKit.PingPong.Message

namespace WorkloadKit.PingPong

variable {α : Type*} {msg : List α} {s s' : State α} {e : Event} {es : List Event}

structure Invariant (msg : List α) (s : State α) : Prop where
  flow     : s.rep ++ s.wire = msg.take s.totalsent
  sum      : s.results.sum = s.totalsent
  le       : s.totalsent ≤ msg.length
  raised   : s.sender = .raised ↔ 0 ∈ s.results
  returned : s.sender = .returned → s.totalsent = msg.length
  sends    : s.results.length ≤ s.totalsent + if s.sender = .raised then 1 else 0
  short    : s.sender = .raised → s.totalsent < msg.length
  closed   : s.closed = true → s.sender ≠ .sending
  received : s.totalrecv = 0 → s.closed = true ∧ s.wire = []

namespace Invariant

theorem init : Invariant msg init where
  flow     := by simp [PingPong.init]
  sum      := rfl
  le       := Nat.zero_le _
  raised   := by simp [PingPong.init]
  returned := nofun
  sends    := Nat.zero_le _
  short    := nofun
  closed   := nofun
  received := nofun

-- The bytes that a call of `send` accepts are the next ones of the message.
theorem step_send {sent : ℕ} (h : Invariant msg s) (hs : (message msg).step s (.send sent) = some s') :
    Invariant msg s' := by
  obtain ⟨⟨hp, hl, hn⟩, hs⟩ := Option.ite_none_right_eq_some.mp hs
  have hz : 0 ∉ s.results := mt h.raised.mpr <| by simp [hp]
  have hc : ¬s.closed = true := fun hc => h.closed hc hp
  have hr : s.totalrecv ≠ 0 := fun hr => hc (h.received hr).left
  have hk := h.sends
  rw [hp, if_neg (by nofun)] at hk
  split at hs
  case isTrue h₀ =>
    obtain rfl := Option.some.inj hs
    exact {
      flow     := h.flow
      sum      := by simp [h.sum, h₀]
      le       := h.le
      raised   := by simp [h₀]
      returned := nofun
      sends    := by simpa using hk
      short    := fun _ => hl
      closed   := fun _ => nofun
      received := fun h₀ => absurd h₀ hr }
  case isFalse h₀ =>
    obtain rfl := Option.some.inj hs
    rw [List.length_drop] at hn
    exact {
      flow     := by rw [List.take_add, ←h.flow, List.append_assoc]
      sum      := by simp [h.sum]
      le       := by dsimp only; omega
      raised   := by simp [hp, hz, Ne.symm h₀]
      returned := fun hr => by simp [hp] at hr
      sends    := by simp [hp]; omega
      short    := fun hr => by simp [hp] at hr
      closed   := fun hc' => absurd hc' hc
      received := fun h₀ => absurd h₀ hr }

theorem step (h : Invariant msg s) (hs : (message msg).step s e = some s') : Invariant msg s' := by
  cases e
  case send => exact h.step_send hs
  case endSend =>
    obtain ⟨⟨hp, hl⟩, hs⟩ := Option.ite_none_right_eq_some.mp hs
    obtain rfl := Option.some.inj hs
    have hz : 0 ∉ s.results := mt h.raised.mpr <| by simp [hp]
    have hk := h.sends
    have := h.le
    exact {
      flow     := h.flow
      sum      := h.sum
      le       := h.le
      raised   := by simp [hz]
      returned := fun _ => by dsimp only; omega
      sends    := by simpa [hp] using hk
      short    := nofun
      closed   := fun _ => nofun
      received := h.received }
  case close =>
    obtain ⟨⟨hp, _⟩, hs⟩ := Option.ite_none_right_eq_some.mp hs
    obtain rfl := Option.some.inj hs
    exact { h with closed := fun _ => hp, received := fun hr => ⟨rfl, (h.received hr).right⟩ }
  case recv len =>
    obtain ⟨⟨_, _, hl, hz⟩, hs⟩ := Option.ite_none_right_eq_some.mp hs
    obtain rfl := Option.some.inj hs
    have hlen : (s.wire.take len).length = len := by rw [List.length_take, min_eq_left hl]
    refine { h with flow := ?_, received := fun hr => ?_ }
    · rw [List.append_assoc, List.take_append_drop]
      exact h.flow
    · have ⟨hc, hw⟩ := hz <| hlen.symm.trans hr
      exact ⟨hc, by simp [List.length_eq_zero_iff.mp hw]⟩

end Invariant

theorem invariant (h : (message msg).Reachable s) : Invariant msg s :=
  h.invariant .init fun h _ hs => h.step hs

-- The steps that are left.
def rest (msg : List α) (s : State α) : ℕ :=
  2 * (msg.length - s.totalsent) + s.wire.length + (if s.sender = .sending then 1 else 0) +
    (if s.closed then 0 else 1) + if s.totalrecv = 0 then 0 else 1

theorem rest_lt (hs : (message msg).step s e = some s') : rest msg s' < rest msg s := by
  cases e
  case send sent =>
    obtain ⟨⟨hp, hl, hn⟩, hs⟩ := Option.ite_none_right_eq_some.mp hs
    split at hs
    case isTrue =>
      obtain rfl := Option.some.inj hs
      simp [rest, hp]
    case isFalse =>
      obtain rfl := Option.some.inj hs
      rw [List.length_drop] at hn
      simp only [rest, List.length_append, List.length_take, List.length_drop, min_eq_left hn]
      omega
  case endSend =>
    obtain ⟨⟨hp, _⟩, hs⟩ := Option.ite_none_right_eq_some.mp hs
    obtain rfl := Option.some.inj hs
    simp [rest, hp]
  case close =>
    obtain ⟨⟨_, hc⟩, hs⟩ := Option.ite_none_right_eq_some.mp hs
    obtain rfl := Option.some.inj hs
    simp [rest, hc]
  case recv len =>
    obtain ⟨⟨hr, _, hl, _⟩, hs⟩ := Option.ite_none_right_eq_some.mp hs
    obtain rfl := Option.some.inj hs
    simp only [rest, List.length_take, List.length_drop, min_eq_left hl, if_neg hr.ne']
    by_cases h₀ : len = 0
    case pos =>
      rw [if_pos h₀]
      omega
    case neg =>
      rw [if_neg h₀]
      omega

-- There is a next step until both calls have ended.
theorem exists_step (hf : ¬(s.closed = true ∧ s.totalrecv = 0)) :
    ∃ e s', (message msg).step s e = some s' := by
  suffices he : ∃ e, (message msg).Enabled s e by
    obtain ⟨e, he⟩ := he
    exact ⟨e, Option.isSome_iff_exists.mp he⟩
  by_cases hp : s.sender = .sending
  case pos =>
    by_cases hl : s.totalsent < msg.length
    case pos => exact ⟨.send 0, by simp [System.Enabled, message, PingPong.step, hp, hl]⟩
    case neg => exact ⟨.endSend, by simp [System.Enabled, message, PingPong.step, hp, hl]⟩
  case neg =>
    by_cases hc : s.closed = true
    case neg => exact ⟨.close, by simp [System.Enabled, message, PingPong.step, hp, hc]⟩
    case pos =>
      have hr : 0 < s.totalrecv := Nat.pos_of_ne_zero fun hr => hf ⟨hc, hr⟩
      have hn : min 1024 s.wire.length = 0 → s.wire.length = 0 := by omega
      refine ⟨.recv <| min 1024 s.wire.length, ?_⟩
      rw [System.Enabled, message]
      simp only [PingPong.step]
      rw [if_pos ⟨hr, min_le_left .., min_le_right .., fun h₀ => ⟨hc, hn h₀⟩⟩]
      rfl

-- The bytes that `send` has accepted are those at the beginning of the message, and they are received in order.
-- The exception is raised for a result of 0, which is only possible before the end of the message.
structure Transferred (msg : List α) (s : State α) : Prop where
  sent     : s.rep ++ s.wire = msg.take s.results.sum
  raised   : s.sender = .raised ↔ 0 ∈ s.results
  short    : s.sender = .raised → s.results.sum < msg.length
  returned : s.sender = .returned → s.results.sum = msg.length
  received : s.totalrecv = 0 → s.rep = msg.take s.results.sum
  whole    : s.totalrecv = 0 → s.sender = .returned → s.rep = msg

theorem Invariant.transferred (h : Invariant msg s) : Transferred msg s where
  sent     := h.sum.symm ▸ h.flow
  raised   := h.raised
  short    := h.sum.symm ▸ h.short
  returned := h.sum.symm ▸ h.returned
  received := by
    intro hr
    have hf := h.flow
    rwa [(h.received hr).right, List.append_nil, ←h.sum] at hf
  whole    := by
    intro hr hs
    have hf := h.flow
    rwa [(h.received hr).right, List.append_nil, h.returned hs, List.take_length] at hf

-- All sizes of the pieces are covered by the schedule. Both calls end after a bounded number of steps, with as
-- many calls of `send` as there are bytes at most.
theorem message_transferred (he : (message msg).exec (message msg).init es = some s) :
    Transferred msg s ∧ es.length ≤ 2 * msg.length + 3 ∧ s.results.length ≤ msg.length ∧
    ((∀ e, (message msg).step s e = none) → s.sender ≠ .sending ∧ s.totalrecv = 0) := by
  have h := invariant <| System.ReachableUnder.of_exec he
  refine ⟨h.transferred, ?_, ?_, fun hn => ?_⟩
  · have hs {s₁ e s₂} (_ : True) (hs : (message msg).step s₁ e = some s₂) : True ∧ rest msg s₂ < rest msg s₁ :=
      ⟨trivial, rest_lt hs⟩
    have hl := System.rest_add_length_le (rest msg) hs trivial he
    have hr : rest msg (message msg).init = 2 * msg.length + 3 := rfl
    omega
  · have hk := h.sends
    split at hk
    case isTrue hr =>
      have := h.short hr
      omega
    case isFalse => exact hk.trans h.le
  · by_contra hf
    have ⟨e, s', hs⟩ : ∃ e s', (message msg).step s e = some s' :=
      exists_step fun ⟨hc, hr⟩ => hf ⟨h.closed hc, hr⟩
    exact absurd ((hn e).symm.trans hs) nofun

-- The message `ping` is sent in two pieces and received in three.
theorem message_transferred_ping :
    ∃ s, Transferred ['p', 'i', 'n', 'g'] s ∧ s.sender = .returned ∧ s.totalrecv = 0 ∧
      s.rep = ['p', 'i', 'n', 'g'] := by
  let es : List Event := [.send 3, .recv 1, .send 1, .endSend, .recv 1, .close, .recv 2, .recv 0]
  have he : ((message ['p', 'i', 'n', 'g']).exec init es).map (fun s => (s.sender, s.totalrecv)) =
      some (.returned, 0) := by decide
  have ⟨s, he, hv⟩ := Option.map_eq_some_iff.mp he
  have ⟨hs, hr⟩ := Prod.mk.inj hv
  have ht := (message_transferred he).left
  exact ⟨s, ht, hs, hr, ht.whole hr hs⟩

end WorkloadKit.PingPong
