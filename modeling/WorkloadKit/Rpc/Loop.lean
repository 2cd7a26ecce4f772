import WorkloadKit.Rpc.State

-- The inner loop of the server on its own, for a client that sends any bytes.
namespace WorkloadKit.Rpc.Loop

-- The statement that the server executes next. In `hog` it is in the loop of `do_hog`, about to decrement
-- the given number.
inductive Pc
  | read | switch | hog (niters : ℤ) | write | test | closed
  deriving DecidableEq

-- The field `rest` holds the bytes that have not been read, at the end of which the client has closed the
-- connection.
structure State where
  pc   : Pc
  msg  : Message
  rest : List Byte

def init (stream : List Byte) : State where
  pc   := .read
  msg  := .received []
  rest := stream

-- A call of `do_hog`. There is one iteration if the argument is not positive.
def doHog (niters : ℤ) : Pc :=
  .hog <| if niters ≤ 0 then 1 else niters

-- The statements other than the call of `read`. The result of `do_sleep` is not used, which returns for
-- each argument.
def stepServer (count : BitVec 64) (s : State) : Option State :=
  match s.pc with
  | .switch =>
    match s.msg.command count with
    | .hog niters => some { s with pc := doHog niters.toInt }
    | .sleep _    => some { s with pc := .write }
    | .nothing    => some { s with pc := .write }
  | .hog niters => some { s with pc := if niters - 1 ≠ 0 then .hog (niters - 1) else .write }
  | .write      => some { s with pc := .test, msg := { s.msg with ret := 42 } }
  | .test       => some { s with pc := if s.msg.cnt.toInt > 0 then .read else .closed }
  | .read | .closed => none

-- The call of `read`, which blocks until it can return something, or nothing at the end of the stream.
def read (s : State) (n : ℕ) : Option State :=
  if s.pc = .read ∧ CanRead n s.rest True then
    some { s with pc := .switch, msg := .received (s.rest.take n), rest := s.rest.drop n }
  else
    none

inductive Event
  | server | read (n : ℕ)
  deriving DecidableEq

def Event.isRead : Event → Bool
  | server => false
  | read _ => true

def step (count : BitVec 64) (s : State) : Event → Option State
  | .server => stepServer count s
  | .read n => Loop.read s n

def server (count : BitVec 64) (stream : List Byte) : System State Event where
  init := init stream
  step := step count

end WorkloadKit.Rpc.Loop
