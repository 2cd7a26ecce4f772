import Mathlib.Algebra.Ring.Nat
import WorkloadKit.Rpc.Theorems.Lockstep

namespace WorkloadKit.Rpc

open Message (reply received)

-- Each call of `read` returns a whole message, or 0 at the end of the stream.
def WholeReadsOrEnd (_ : State) : Event → Prop
  | .client | .server               => True
  | .readClient n | .readServer n => n = 0 ∨ n = Message.size

-- The server after it has taken the end of the stream for a message.
inductive Drained (p : Params) : Server → Prop
  | switch : Drained p (answered p p.msgs .switch <| received [])
  | write  : Drained p { answered p (p.msgs ++ [received []]) .write <| received [] with
      replies := p.msgs.map reply }
  | test   : Drained p (answered p (p.msgs ++ [received []]) .test <| reply <| received [])
  | closed : Drained p (answered p (p.msgs ++ [received []]) .closed <| reply <| received [])

-- A session whose client has closed the connection without the server being aware of it.
structure Ended (p : Params) (s : State) : Prop where
  client : s.client.pc = .closed
  server : Drained p s.server

variable {p : Params} {s s' : State} {e : Event} {msg msg' : Message} {sent rest : List Message}

theorem Ended.step (hd : Ended p s) (he : step p s e = some s') : Ended p s' := by
  have ⟨hc, hs⟩ := hd
  cases e
  case client => simp [Rpc.step, stepClient, hc] at he
  case server =>
    obtain ⟨_, server, _, _⟩ := s
    cases hs <;> cases he
    case switch => exact ⟨hc, by simpa [answered] using Drained.write⟩
    case write  => exact ⟨hc, by simpa [answered, reply] using Drained.test⟩
    case test   => exact ⟨hc, .closed⟩
  case readClient => simp [Rpc.step, readClient, hc] at he
  case readServer =>
    simp only [Rpc.step, readServer, Option.ite_none_right_eq_some] at he
    have hp := he.left.left
    obtain ⟨_, server, _, _⟩ := s
    cases hs <;> cases hp

-- A message never makes the server leave its loop.
def Continued (p : Params) : Prop :=
  ∀ msg ∈ p.msgs, 0 < msg.cnt.toInt

theorem Lockstep.not_closed (hl : Lockstep p s) (hn : Continued p) : s.server.pc ≠ .closed := by
  intro hc
  cases hl
  case switch | write => cases hc
  case idle hw _ | request hw | reply hw =>
    cases hw <;> cases hc
    case closed hm hle => have := hn _ hm; omega

theorem Lockstep.step_or_ended (hl : Lockstep p s) (hn : Continued p) (hc : WholeReadsOrEnd s e)
    (he : Rpc.step p s e = some s') : Lockstep p s' ∨ Ended p s' := by
  cases e
  case client => exact .inl <| hl.step (e := .client) trivial he
  case server => exact .inl <| hl.step (e := .server) trivial he
  case readClient n =>
    obtain rfl | hc : n = 0 ∨ n = Message.size := hc
    case inr => exact .inl <| hl.step (e := .readClient n) hc he
    case inl =>
      simp only [Rpc.step, readClient, Option.ite_none_right_eq_some] at he
      obtain ⟨_, _, hz⟩ := he.left.right
      exact absurd (hz rfl).right <| hl.not_closed hn
  case readServer n =>
    obtain rfl | hc : n = 0 ∨ n = Message.size := hc
    case inr => exact .inl <| hl.step (e := .readServer n) hc he
    case inl =>
      simp only [Rpc.step, readServer, Option.ite_none_right_eq_some, Option.some.injEq] at he
      obtain ⟨⟨-, -, -, hz⟩, rfl⟩ := he
      replace hz := (hz rfl).right
      refine .inr ⟨hz, ?_⟩
      cases hl
      case idle sent rest pc msg cpc hm _ hcp =>
        obtain ⟨_, rfl⟩ := hcp.resolve_left <| by rintro rfl; cases hz
        obtain rfl : p.msgs = sent := hm.trans <| List.append_nil _
        exact .switch
      all_goals cases hz

theorem lockstep_or_ended (hn : Continued p) (h : (connection p).ReachableUnder WholeReadsOrEnd s) :
    Lockstep p s ∨ Ended p s := by
  refine h.invariant (I := fun s => Lockstep p s ∨ Ended p s) (.inl <| .init p) ?_
  rintro _ _ _ (hl | hd) hc he
  case inl => exact hl.step_or_ended hn hc he
  case inr => exact .inr <| hd.step he

-- The state before the client sends the messages `rest`, while the server waits for them.
def between (p : Params) (sent rest : List Message) (msg : Message) : State where
  client   := { pc := .next, msgs := rest, answers := sent.map reply }
  server   := answered p sent .read msg
  toServer := []
  toClient := []

theorem exec_round (p : Params) (sent rest : List Message) (msg' : Message) (h : 0 < msg.cnt.toInt) :
    (connection p).exec (between p sent (msg :: rest) msg')
      [.client, .readServer Message.size, .server, .server, .server, .readClient Message.size] =
      some (between p (sent ++ [msg]) rest msg.reply) := by
  have hz : Message.size ≠ 0 := by decide
  simp [System.exec, connection, step, stepClient, stepServer, readServer, readClient, CanRead, between,
    answered, hz, h, reply]

theorem reachable_between (hn : Continued p) (hm : p.msgs = sent ++ rest)
    (h : (connection p).ReachableUnder WholeReadsOrEnd (between p sent rest msg)) :
    ∃ msg', (connection p).ReachableUnder WholeReadsOrEnd (between p p.msgs [] msg') := by
  induction rest generalizing sent msg
  case nil =>
    obtain rfl : p.msgs = sent := hm.trans <| List.append_nil _
    exact ⟨msg, h⟩
  case cons m rest hi =>
    have hr := exec_round p sent rest msg <| hn m <| hm ▸ List.mem_append_cons_self
    exact hi (hm.trans <| List.append_cons ..) <| h.exec_of_forall (by simp [WholeReadsOrEnd]) hr

theorem exec_end (p : Params) (msg : Message) :
    ∃ s, (connection p).exec (between p p.msgs [] msg)
      [.client, .readServer 0, .server, .server, .server] = some s ∧ s.server.pc = .closed := by
  have hz : ¬0 < (received []).cnt.toInt := by decide
  simp [System.exec, connection, step, stepClient, stepServer, readServer, CanRead, between, answered, hz]

theorem exists_closed (hn : Continued p) :
    ∃ s, (connection p).ReachableUnder WholeReadsOrEnd s ∧ s.server.pc = .closed := by
  have hi : (connection p).ReachableUnder WholeReadsOrEnd (between p [] p.msgs <| received []) := .init
  have ⟨msg, h⟩ := reachable_between hn rfl hi
  have ⟨s, he, hs⟩ := exec_end p msg
  exact ⟨s, h.exec_of_forall (by simp [WholeReadsOrEnd]) he, hs⟩

-- The zeroed message is a command that the client has not sent.
theorem command_received_nil (count : BitVec 64) : (received []).command count = .hog 0 := by
  have ha : (received []).arg = 0 := by decide
  have hc : (received []).cmd = RPC_HOG := by decide
  simp [Message.command, ha, hc]

theorem Drained.closed_eq {server : Server} (hd : Drained p server) (hc : server.pc = .closed) :
    server.executed = p.msgs.map (·.command p.count) ++ [.hog 0] ∧
    server.replies.length = p.msgs.length + 1 := by
  cases hd <;> cases hc
  case closed => simp [answered, command_received_nil]

theorem closed_eq (hn : Continued p) (h : (connection p).ReachableUnder WholeReadsOrEnd s)
    (hc : s.server.pc = .closed) :
    s.server.executed = p.msgs.map (·.command p.count) ++ [.hog 0] ∧
    s.server.replies.length = p.msgs.length + 1 := by
  obtain hl | hd := lockstep_or_ended hn h
  case inl => exact absurd hc <| hl.not_closed hn
  case inr => exact hd.server.closed_eq hc

theorem Opts.continued {opts : Opts} (h : opts.repeats < 2 ^ 31) (count : BitVec 64) :
    Continued { msgs := opts.messages, count } := by
  intro msg hm
  obtain ⟨i, hi, rfl⟩ := List.mem_map.mp hm
  have hi := List.mem_range.mp hi
  have hn : (BitVec.ofNat 32 (opts.repeats - i)).toNat = opts.repeats - i := by
    rw [BitVec.toNat_ofNat]
    exact Nat.mod_eq_of_lt <| by omega
  have hp : 0 < (BitVec.ofNat 32 (opts.repeats - i)).toInt := by
    rw [BitVec.toInt_eq_toNat_of_lt] <;> omega
  exact hp

-- The server executes the commands that the client has sent, and nothing else, before it leaves its loop.
def ServesExactly (p : Params) : Prop :=
  ∀ s, (connection p).ReachableUnder WholeReadsOrEnd s → s.server.pc = .closed →
    s.server.executed = p.msgs.map (·.command p.count) ∧ s.server.replies.length = p.msgs.length

-- The last message announces another one, so that the server answers the end of the stream as well.
theorem not_serves_exactly (opts : Opts) (count : BitVec 64) (hi : opts.repeats < 2 ^ 31) :
    let p : Params := { msgs := opts.messages, count }
    ¬ServesExactly p ∧
    ∀ s, (connection p).ReachableUnder WholeReadsOrEnd s → s.server.pc = .closed →
      s.server.executed = p.msgs.map (·.command count) ++ [.hog 0] ∧
      s.server.replies.length = opts.repeats + 1 := by
  intro p
  have hn := Opts.continued hi count
  have hlen : p.msgs.length = opts.repeats := by simp [p, Opts.messages]
  refine ⟨fun hs => ?_, fun s h hc => hlen ▸ closed_eq hn h hc⟩
  have ⟨s, h, hc⟩ := exists_closed hn
  have hl := (closed_eq hn h hc).right
  exact Nat.succ_ne_self _ <| hl.symm.trans (hs s h hc).right

theorem not_serves_exactly_ping :
    ¬ServesExactly { msgs := Opts.messages { cmd := 2, delay := 0, repeats := 3 }, count := 1 } :=
  (not_serves_exactly { cmd := 2, delay := 0, repeats := 3 } 1 (by decide)).left

-- The client sends a single command, but the server executes two of them.
theorem serves_one_too_many :
    let p : Params := { msgs := Opts.messages { cmd := RPC_SLEEP, delay := 5, repeats := 1 }, count := 1 }
    ∃ es s, (connection p).exec (init p) es = some s ∧ s.server.pc = .closed ∧
      s.server.executed = [.sleep 5, .hog 0] ∧ ¬ServesExactly p := by
  intro p
  let es : List Event := [.client, .readServer 16, .server, .server, .server, .readClient 16,
    .client, .readServer 0, .server, .server, .server]
  have he : ((connection p).exec (init p) es).map (fun s => (s.server.pc, s.server.executed)) =
      some (.closed, [.sleep 5, .hog 0]) := by
    decide
  have ⟨s, hs, hc⟩ := Option.map_eq_some_iff.mp he
  have ⟨hc, hx⟩ := Prod.mk.inj hc
  refine ⟨es, s, hs, hc, hx, fun hse => ?_⟩
  have hr : (connection p).ReachableUnder WholeReadsOrEnd s :=
    System.ReachableUnder.init.exec_of_forall (by simp [es, WholeReadsOrEnd, Message.size]) hs
  have := (hse s hr hc).left
  rw [hx] at this
  revert this
  decide

end WorkloadKit.Rpc
