import WorkloadKit.Library.Bytes
import WorkloadKit.Library.System

namespace WorkloadKit.Rpc

-- The first two constants of `enum commands`. The server does not do anything for the others.
def RPC_HOG : BitVec 32 := 0
def RPC_SLEEP : BitVec 32 := 1

@[ext]
structure Message where
  cmd : BitVec 32
  arg : BitVec 32
  cnt : BitVec 32
  ret : BitVec 32
  deriving DecidableEq

namespace Message

-- sizeof(struct message)
def size : ℕ := 16

def toBytes (msg : Message) : List Byte :=
  toLe32 msg.cmd ++ toLe32 msg.arg ++ toLe32 msg.cnt ++ toLe32 msg.ret

def ofBytes (buf : List Byte) : Message where
  cmd := ofLe32 buf
  arg := ofLe32 <| buf.drop 4
  cnt := ofLe32 <| buf.drop 8
  ret := ofLe32 <| buf.drop 12

-- The value of a variable that `read` stores some bytes to, after `memset` has cleared it.
def received (bytes : List Byte) : Message :=
  ofBytes <| overlay (List.replicate size 0) bytes

end Message

-- What the server does for a command.
inductive Command
  | hog (count : BitVec 64) | sleep (arg : BitVec 32) | nothing
  deriving DecidableEq

-- The switch on `msg.cmd`. The product converts `msg.arg` to an `unsigned long`.
def Message.command (msg : Message) (count : BitVec 64) : Command :=
  if msg.cmd = RPC_HOG then
    .hog (msg.arg.signExtend 64 * count)
  else if msg.cmd = RPC_SLEEP then
    .sleep msg.arg
  else
    .nothing

-- The options that `rpc_experiment` uses.
structure Opts where
  cmd     : BitVec 32
  delay   : BitVec 32
  repeats : ℕ

-- The messages of the iterations of `rpc_experiment`.
def Opts.messages (opts : Opts) : List Message :=
  (List.range opts.repeats).map fun i =>
    { cmd := opts.cmd, arg := opts.delay, cnt := BitVec.ofNat 32 (opts.repeats - i), ret := 0 }

-- The messages that the client sends, and the calibration of the server.
structure Params where
  msgs  : List Message
  count : BitVec 64

-- The client is about to start the next iteration of its loop, or it is in `rpc_command` after its
-- call of `write`, or it has closed the connection.
inductive Client.Pc
  | next | read | closed
  deriving DecidableEq

-- The messages that have yet to be sent, and the values of `ans` after the calls of `rpc_command`.
structure Client where
  pc      : Client.Pc
  msgs    : List Message
  answers : List Message

-- The statement of the loop that the server executes next. It is in `closed` after its loop.
inductive Server.Pc
  | read | switch | write | test | closed
  deriving DecidableEq

-- The fields `acted` and `replies` are ghosts, which record the values of `msg` that the server has
-- executed a command for and that it has sent.
structure Server where
  pc       : Server.Pc
  msg      : Message
  executed : List Command
  acted    : List Message
  replies  : List Message

-- The bytes that are on their way to the server and to the client come with the states of the two.
structure State where
  client   : Client
  server   : Server
  toServer : List Byte
  toClient : List Byte

def init (p : Params) : State where
  client   := { pc := .next, msgs := p.msgs, answers := [] }
  server   := { pc := .read, msg := .received [], executed := [], acted := [], replies := [] }
  toServer := []
  toClient := []

-- Whether `read` can return `n` bytes of a stream of which some bytes have arrived. It does not return
-- anything only after the stream has ended.
def CanRead (n : ℕ) (stream : List Byte) (ended : Prop) : Prop :=
  n ≤ Message.size ∧ n ≤ stream.length ∧ (n = 0 → stream = [] ∧ ended)

instance [Decidable ended] : Decidable (CanRead n stream ended) :=
  inferInstanceAs <| Decidable (_ ∧ _ ∧ _)

-- The statements other than the calls of `read`.
def stepClient (s : State) : Option State :=
  match s.client.pc with
  | .next =>
    match s.client.msgs with
    | []          => some { s with client := { s.client with pc := .closed } }
    | msg :: msgs =>
      some { s with
        client   := { s.client with pc := .read, msgs }
        toServer := s.toServer ++ msg.toBytes }
  | .read | .closed => none

def stepServer (p : Params) (s : State) : Option State :=
  let msg := s.server.msg
  match s.server.pc with
  | .switch =>
    some { s with server := { s.server with
      pc       := .write
      executed := s.server.executed ++ [msg.command p.count]
      acted    := s.server.acted ++ [msg] } }
  | .write  =>
    let reply := { msg with ret := 42 }
    some { s with
      server   := { s.server with pc := .test, msg := reply, replies := s.server.replies ++ [reply] }
      toClient := s.toClient ++ reply.toBytes }
  | .test   => some { s with server := { s.server with pc := if msg.cnt.toInt > 0 then .read else .closed } }
  | .read | .closed => none

def readClient (s : State) (n : ℕ) : Option State :=
  if s.client.pc = .read ∧ CanRead n s.toClient (s.server.pc = .closed) then
    some { s with
      client   := { s.client with pc := .next, answers := s.client.answers ++ [.received (s.toClient.take n)] }
      toClient := s.toClient.drop n }
  else
    none

def readServer (s : State) (n : ℕ) : Option State :=
  if s.server.pc = .read ∧ CanRead n s.toServer (s.client.pc = .closed) then
    some { s with
      server   := { s.server with pc := .switch, msg := .received (s.toServer.take n) }
      toServer := s.toServer.drop n }
  else
    none

-- The events of `read` come with the number of bytes that the call returns.
inductive Event
  | client | server | readClient (n : ℕ) | readServer (n : ℕ)
  deriving DecidableEq

def step (p : Params) (s : State) : Event → Option State
  | .client       => stepClient s
  | .server       => stepServer p s
  | .readClient n => readClient s n
  | .readServer n => readServer s n

-- A connection on which no call fails.
def connection (p : Params) : System State Event where
  init := init p
  step := step p

end WorkloadKit.Rpc
