import WorkloadKit.Rpc.Theorems.Framing
import WorkloadKit.Rpc.Theorems.Session

namespace WorkloadKit.Rpc

open Message (reply received)

variable {p : Params} {s s' : State} {e : Event}

-- A client that has closed the connection has not changed by any other statement than that.
theorem client_of_step (he : step p s e = some s') (hn : e ≠ .client) (hc : s'.client.pc = .closed) :
    s'.client = s.client := by
  cases e
  case client => exact absurd rfl hn
  case server =>
    rw [step] at he
    cases hp : s.server.pc <;> simp only [stepServer, hp, reduceCtorEq, Option.some.injEq] at he <;>
      subst he <;> rfl
  case readClient =>
    simp only [step, readClient, Option.ite_none_right_eq_some, Option.some.injEq] at he
    obtain ⟨_, rfl⟩ := he
    cases hc
  case readServer =>
    simp only [step, readServer, Option.ite_none_right_eq_some, Option.some.injEq] at he
    obtain ⟨_, rfl⟩ := he
    rfl

-- The client closes the connection after it has received all answers.
theorem answers_of_closed (hn : Continued p) (h : (connection p).ReachableUnder WholeReadsOrEnd s)
    (hc : s.client.pc = .closed) : s.client.answers = p.msgs.map reply := by
  refine (h.invariant (I := fun s => (Lockstep p s ∨ Ended p s) ∧
    (s.client.pc = .closed → s.client.answers = p.msgs.map reply)) ⟨.inl <| .init p, by rintro ⟨⟩⟩ ?_).right hc
  rintro s₁ e s₂ ⟨hl | hd, ha⟩ hw he
  case inl =>
    refine ⟨hl.step_or_ended hn hw he, fun hc => ?_⟩
    by_cases hce : e = .client
    case pos =>
      subst hce
      have hl : Lockstep p s₂ := hl.step (e := .client) trivial he
      exact (hl.framed.complete hc).right
    case neg =>
      have hs := client_of_step he hce hc
      exact hs ▸ ha (hs ▸ hc)
  case inr =>
    have hd' := hd.step he
    refine ⟨.inr hd', fun hc => ?_⟩
    have hce : e ≠ .client := by
      rintro rfl
      have he : stepClient s₁ = some s₂ := he
      simp [stepClient, hd.client] at he
    exact client_of_step he hce hc ▸ ha hd.client

-- The state of a connection after the server has left its inner loop.
structure Served (p : Params) (s : State) : Prop where
  client   : s.client.pc = .closed
  answers  : s.client.answers = p.msgs.map reply
  executed : s.server.executed = p.msgs.map (·.command p.count) ++ [.hog 0]

theorem served_of_closed (hn : Continued p) (h : (connection p).ReachableUnder WholeReadsOrEnd s)
    (hc : s.server.pc = .closed) : Served p s := by
  obtain hl | hd := lockstep_or_ended hn h
  case inl => exact absurd hc <| hl.not_closed hn
  case inr => exact ⟨hd.client, answers_of_closed hn h hd.client, (hd.server.closed_eq hc).left⟩

def Client.Pc.rest : Client.Pc → ℕ
  | next   => 1
  | read   => 2
  | closed => 0

-- The statements up to the next call of `read`, where a call that is about to be made counts in, too.
def Server.Pc.rest : Server.Pc → ℕ
  | read | closed => 1
  | switch        => 0
  | write         => 3
  | test          => 2

-- How many statements are left. The server executes one more command than the client sends.
def State.rest (p : Params) (s : State) : ℕ :=
  2 * s.client.msgs.length + s.client.pc.rest + 4 * (p.msgs.length + 1 - s.server.acted.length) +
    s.server.pc.rest

theorem Lockstep.acted_le (h : Lockstep p s) : s.server.acted.length ≤ p.msgs.length := by
  cases h
  case idle hm _ _ =>
    rw [hm]
    simp [answered]
  all_goals
    rename p.msgs = _ => hm
    rw [hm]
    simp [answered]

theorem Ended.acted_le (h : Ended p s) (hp : s.server.pc = .switch) :
    s.server.acted.length ≤ p.msgs.length := by
  obtain ⟨_, server, _, _⟩ := s
  have hd : Drained p server := h.server
  cases hd <;> cases hp
  exact le_rfl

theorem step_rest_lt (h : Lockstep p s ∨ Ended p s) (he : step p s e = some s') :
    s'.rest p < s.rest p := by
  have ha (hp : s.server.pc = .switch) : s.server.acted.length ≤ p.msgs.length :=
    h.elim Lockstep.acted_le fun h => h.acted_le hp
  cases e
  case client =>
    rw [step] at he
    cases hp : s.client.pc <;> simp only [stepClient, hp, reduceCtorEq] at he
    split at he <;> cases he <;> rename s.client.msgs = _ => hm <;>
      simp only [State.rest, hp, hm, Client.Pc.rest, List.length_cons] <;> omega
  case server =>
    rw [step] at he
    cases hp : s.server.pc <;> simp only [stepServer, hp, reduceCtorEq, Option.some.injEq] at he <;> subst he
    case switch =>
      have := ha hp
      simp only [State.rest, hp, Server.Pc.rest, List.length_append, List.length_singleton]
      omega
    case write => simp only [State.rest, hp, Server.Pc.rest]; omega
    case test  =>
      have hr : (if 0 < s.server.msg.cnt.toInt then Server.Pc.read else .closed).rest = 1 := by split <;> rfl
      simp only [State.rest, hp, gt_iff_lt, hr]
      simp only [Server.Pc.rest]
      omega
  case readClient =>
    simp only [step, readClient, Option.ite_none_right_eq_some, Option.some.injEq] at he
    obtain ⟨⟨hp, _⟩, rfl⟩ := he
    simp only [State.rest, hp, Client.Pc.rest]
    omega
  case readServer =>
    simp only [step, readServer, Option.ite_none_right_eq_some, Option.some.injEq] at he
    obtain ⟨⟨hp, _⟩, rfl⟩ := he
    simp only [State.rest, hp, Server.Pc.rest]
    omega

-- As long as the server is in its inner loop, it can go on, or its client can, or one of them has something
-- to read.
theorem exists_enabled (h : Lockstep p s ∨ Ended p s) (hc : s.server.pc ≠ .closed) :
    ∃ e, WholeReadsOrEnd s e ∧ (step p s e).isSome := by
  have server (hp : (stepServer p s).isSome) : ∃ e, WholeReadsOrEnd s e ∧ (step p s e).isSome :=
    ⟨.server, trivial, hp⟩
  have hz : Message.size ≠ 0 := by decide
  obtain hl | hd := h
  case inl =>
    cases hl
    case idle sent rest pc msg cpc hm hw hp =>
      obtain rfl | ⟨rfl, rfl⟩ := hp
      case inl =>
        refine ⟨.client, trivial, ?_⟩
        simp only [step, stepClient]
        split <;> rfl
      case inr =>
        cases hw
        case read   => exact ⟨.readServer 0, .inl rfl, by simp [step, readServer, answered, CanRead]⟩
        case test   => exact server rfl
        case closed => exact absurd rfl hc
    case request hm hw =>
      cases hw
      case read   =>
        exact ⟨.readServer Message.size, .inr rfl, by simp [step, readServer, answered, CanRead, hz]⟩
      case test   => exact server rfl
      case closed => exact absurd rfl hc
    case switch => exact server rfl
    case write  => exact server rfl
    case reply  => exact ⟨.readClient Message.size, .inr rfl, by simp [step, readClient, CanRead, hz]⟩
  case inr =>
    obtain ⟨_, sv, _, _⟩ := s
    have hd : Drained p sv := hd.server
    cases hd
    case closed => exact absurd rfl hc
    all_goals exact server rfl

end WorkloadKit.Rpc
