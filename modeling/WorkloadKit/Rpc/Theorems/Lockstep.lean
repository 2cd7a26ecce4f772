import WorkloadKit.Rpc.State

namespace WorkloadKit.Rpc

namespace Message

-- The answer of the server to a message.
def reply (msg : Message) : Message :=
  { msg with ret := 42 }

@[simp]
theorem toBytes_length (msg : Message) : msg.toBytes.length = size :=
  rfl

theorem ofBytes_toBytes (msg : Message) : ofBytes msg.toBytes = msg := by
  have hc := ofLe32_toLe32_append msg.cmd (toLe32 msg.arg ++ toLe32 msg.cnt ++ toLe32 msg.ret)
  have ha := ofLe32_toLe32_append msg.arg (toLe32 msg.cnt ++ toLe32 msg.ret)
  have hn := ofLe32_toLe32_append msg.cnt (toLe32 msg.ret)
  have hr := ofLe32_toLe32_append msg.ret []
  ext1
  exacts [hc, ha, hn, hr]

@[simp]
theorem received_toBytes (msg : Message) : received (msg.toBytes.take size) = msg := by
  rw [List.take_of_length_le msg.toBytes_length.le, received, overlay_of_length_le (by simp),
    ofBytes_toBytes]

@[simp]
theorem drop_toBytes (msg : Message) : msg.toBytes.drop size = [] :=
  List.drop_of_length_le msg.toBytes_length.le

end Message

-- Each call of `read` returns a whole message.
def WholeReads (_ : State) : Event → Prop
  | .client | .server               => True
  | .readClient n | .readServer n => n = Message.size

-- The server has answered all messages that it has received. It may be about to test if there are others,
-- and it does not leave its loop if each of them announces another one.
inductive Waiting (p : Params) : Server.Pc → Message → Prop
  | read {msg : Message} : Waiting p .read msg
  | test {msg : Message} : msg ∈ p.msgs → Waiting p .test msg.reply
  | closed {msg msg' : Message} : msg ∈ p.msgs → msg.cnt.toInt ≤ 0 → Waiting p .closed msg'

-- The server after it has answered the messages `sent`.
def answered (p : Params) (sent : List Message) (pc : Server.Pc) (msg : Message) : Server where
  pc       := pc
  msg      := msg
  executed := sent.map (·.command p.count)
  acted    := sent
  replies  := sent.map Message.reply

-- The states in which at most one message or its answer is on its way, each as a whole.
inductive Lockstep (p : Params) : State → Prop
  | idle {sent rest : List Message} {pc msg cpc} :
    p.msgs = sent ++ rest → Waiting p pc msg → cpc = .next ∨ cpc = .closed ∧ rest = [] →
    Lockstep p {
      client   := { pc := cpc, msgs := rest, answers := sent.map Message.reply }
      server   := answered p sent pc msg
      toServer := []
      toClient := [] }
  | request {sent rest : List Message} {pc} {msg msg' : Message} :
    p.msgs = sent ++ msg :: rest → Waiting p pc msg' →
    Lockstep p {
      client   := { pc := .read, msgs := rest, answers := sent.map Message.reply }
      server   := answered p sent pc msg'
      toServer := msg.toBytes
      toClient := [] }
  | switch {sent rest : List Message} {msg : Message} :
    p.msgs = sent ++ msg :: rest →
    Lockstep p {
      client   := { pc := .read, msgs := rest, answers := sent.map Message.reply }
      server   := answered p sent .switch msg
      toServer := []
      toClient := [] }
  | write {sent rest : List Message} {msg : Message} :
    p.msgs = sent ++ msg :: rest →
    Lockstep p {
      client   := { pc := .read, msgs := rest, answers := sent.map Message.reply }
      server   := { answered p (sent ++ [msg]) .write msg with replies := sent.map Message.reply }
      toServer := []
      toClient := [] }
  | reply {sent rest : List Message} {pc} {msg msg' : Message} :
    p.msgs = sent ++ msg :: rest → Waiting p pc msg' →
    Lockstep p {
      client   := { pc := .read, msgs := rest, answers := sent.map Message.reply }
      server   := answered p (sent ++ [msg]) pc msg'
      toServer := []
      toClient := msg.reply.toBytes }

variable {p : Params} {s s' : State} {e : Event} {msg : Message} {pc : Server.Pc} {n : ℕ}

theorem Waiting.next (h : msg ∈ p.msgs) :
    Waiting p (if msg.cnt.toInt > 0 then .read else .closed) msg.reply := by
  split
  case isTrue     => exact .read
  case isFalse hc => exact .closed h <| by omega

namespace Lockstep

theorem init (p : Params) : Lockstep p (init p) :=
  @idle p [] p.msgs _ _ _ rfl .read (.inl rfl)

theorem step (hl : Lockstep p s) (hc : WholeReads s e) (he : Rpc.step p s e = some s') : Lockstep p s' := by
  cases e
  case client =>
    cases hl
    case idle sent rest pc msg cpc hm hw hp =>
      obtain rfl | ⟨rfl, rfl⟩ := hp
      case inr => cases he
      cases rest
      case nil => cases he; exact .idle hm hw <| .inr ⟨rfl, rfl⟩
      case cons => cases he; exact .request hm hw
    all_goals cases he
  case server =>
    cases hl
    case idle hm hw hp => cases hw <;> cases he; case test h => exact .idle hm (Waiting.next h :) hp
    case request hm hw => cases hw <;> cases he; case test h => exact .request hm (Waiting.next h :)
    case reply hm hw   => cases hw <;> cases he; case test h => exact .reply hm (Waiting.next h :)
    case switch hm =>
      cases he
      simpa [answered] using write hm
    case write hm =>
      cases he
      simpa [answered, Message.reply] using reply hm <| .test <| hm ▸ List.mem_append_cons_self
  case readClient n =>
    simp only [Rpc.step, Rpc.readClient, Option.ite_none_right_eq_some, Option.some.injEq] at he
    obtain ⟨⟨hp, hr, hn, -⟩, rfl⟩ := he
    obtain rfl : n = Message.size := hc
    cases hl
    case reply hm hw =>
      have hm : p.msgs = (_ ++ [_]) ++ _ := hm.trans <| List.append_cons ..
      simpa using idle hm hw <| .inl rfl
    all_goals cases hn
  case readServer n =>
    simp only [Rpc.step, Rpc.readServer, Option.ite_none_right_eq_some, Option.some.injEq] at he
    obtain ⟨⟨hp, hr, hn, -⟩, rfl⟩ := he
    obtain rfl : n = Message.size := hc
    cases hl
    case request hm hw =>
      simpa [answered] using switch hm
    all_goals cases hn

end Lockstep

end WorkloadKit.Rpc
