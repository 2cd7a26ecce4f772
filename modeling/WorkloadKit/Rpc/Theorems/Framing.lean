import Mathlib.Data.List.Infix
import WorkloadKit.Rpc.Theorems.Lockstep

namespace WorkloadKit.Rpc

variable {p : Params} {s : State}

-- The server acts on the messages of the client in their order, and the calls of `rpc_command` return its
-- answers to them.
structure Framed (p : Params) (s : State) : Prop where
  acted    : s.server.acted <+: p.msgs
  replies  : s.server.replies <+: s.server.acted.map Message.reply
  answers  : s.client.answers <+: s.server.replies
  complete : s.client.pc = .closed →
    s.server.acted = p.msgs ∧ s.client.answers = p.msgs.map Message.reply

theorem Lockstep.framed (hl : Lockstep p s) : Framed p s := by
  cases hl
  case idle sent rest pc msg cpc hm hw hp =>
    refine ⟨⟨rest, hm.symm⟩, List.prefix_rfl, List.prefix_rfl, fun hc => ?_⟩
    obtain rfl | ⟨_, rfl⟩ := hp
    case inl => cases hc
    case inr =>
      rw [List.append_nil] at hm
      simp [answered, hm]
  case request rest pc msg msg' hm _ =>
    exact ⟨⟨msg :: rest, hm.symm⟩, List.prefix_rfl, List.prefix_rfl, by rintro ⟨⟩⟩
  case switch rest msg hm =>
    exact ⟨⟨msg :: rest, hm.symm⟩, List.prefix_rfl, List.prefix_rfl, by rintro ⟨⟩⟩
  case write rest msg hm =>
    refine ⟨⟨rest, by simp [answered, hm]⟩, ?_, List.prefix_rfl, by rintro ⟨⟩⟩
    exact (List.prefix_append ..).map Message.reply
  case reply rest pc msg msg' hm _ =>
    refine ⟨⟨rest, by simp [answered, hm]⟩, List.prefix_rfl, ?_, by rintro ⟨⟩⟩
    exact (List.prefix_append ..).map Message.reply

theorem Lockstep.reachableUnder (h : (connection p).ReachableUnder WholeReads s) : Lockstep p s :=
  h.invariant (.init p) fun hl hc he => hl.step hc he

-- In a run in which no call of `read` returns a part of a message, the stream keeps the messages apart.
theorem framed_of_whole_reads (p : Params) (h : (connection p).ReachableUnder WholeReads s) :
    Framed p s :=
  (Lockstep.reachableUnder h).framed

def sleepOnce : Opts where
  cmd     := RPC_SLEEP
  delay   := 5
  repeats := 1

-- Two messages follow each other on the stream.
theorem framed_of_whole_reads_twice :
    let p : Params := { msgs := { sleepOnce with repeats := 2 }.messages, count := 1 }
    ∃ es s, (connection p).exec (init p) es = some s ∧ p.msgs.length = 2 ∧ s.client.pc = .closed ∧
      s.server.acted = p.msgs ∧ s.client.answers = p.msgs.map Message.reply := by
  intro p
  let call : List Event := [.client, .readServer 16, .server, .server, .server, .readClient 16]
  let es : List Event := call ++ call ++ [.client]
  have he : ((connection p).exec (init p) es).map (·.client.pc) = some .closed := by
    decide
  have ⟨s, hs, hc⟩ := Option.map_eq_some_iff.mp he
  have hf := framed_of_whole_reads p <|
    System.ReachableUnder.init.exec_of_forall (by simp [es, call, WholeReads, Message.size]) hs
  exact ⟨es, s, hs, by decide, hc, hf.complete hc⟩

-- The server receives the first eight bytes of a message as a message.
theorem not_framed :
    let p : Params := { msgs := sleepOnce.messages, count := 1 }
    ∃ es s, (connection p).exec (init p) es = some s ∧
      s.server.acted.map Message.cnt = [0] ∧ p.msgs.map Message.cnt = [1] ∧ ¬Framed p s := by
  intro p
  let es : List Event := [.client, .readServer 8, .server]
  have he : ((connection p).exec (init p) es).map (·.server.acted.map Message.cnt) = some [0] := by
    decide
  have ⟨s, hs, hc⟩ := Option.map_eq_some_iff.mp he
  refine ⟨es, s, hs, hc, by decide, fun hf => ?_⟩
  have hp := hf.acted.map Message.cnt
  rw [hc] at hp
  revert hp
  decide

end WorkloadKit.Rpc
